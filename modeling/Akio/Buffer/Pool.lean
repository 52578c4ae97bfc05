import Akio.Buffer.Model
import Akio.Lib.Queue

/-!
# The pool

Every buffer is in the free list or out. A buffer that is out is changed by its holder only.
-/

namespace Akio.Buffer

variable {pool pool' : buffer_pool} {f o o' : List Nat} {b p t : Nat} {buffers : Store buffer}

abbrev nextOf (buffers : Store buffer) : Nat → Ptr := buffers.field (·.next) none

/-- The free list is `f`, and the buffers `o` are out. -/
structure PoolOf (pool : buffer_pool) (f o : List Nat) : Prop where
  queue : Queue (nextOf pool.buffers) pool.head_next pool.tail f
  nodup : (f ++ o).Nodup
  size : pool.size = f.length
  allocs : pool.allocs = f.length + o.length
  live : ∀ p, pool.buffers.Live p ↔ p ∈ f ++ o
  rewound : ∀ p ∈ f, ∃ n, pool.buffers.cell p = some n ∧ n.pos = 0 ∧ n.last = 0
  cached : pool.size ≤ pool.maxsize
  room : 0 < pool.maxsize

/-- The buffers `o` are as they were. -/
def Same (buffers buffers' : Store buffer) (o : List Nat) : Prop :=
  ∀ p ∈ o, buffers'.cell p = buffers.cell p

theorem Same.refl : Same buffers buffers o := fun _ _ => rfl

theorem Same.trans {b₁ b₂ b₃ : Store buffer} (h₁ : Same b₁ b₂ o) (h₂ : Same b₂ b₃ o) : Same b₁ b₃ o :=
  fun p hp => (h₂ p hp).trans (h₁ p hp)

theorem Same.mono {b₁ b₂ : Store buffer} (h : Same b₁ b₂ o) (hsub : ∀ p ∈ o', p ∈ o) : Same b₁ b₂ o' :=
  fun p hp => h p (hsub p hp)

theorem same_adjust {change : buffer → buffer} (hb : b ∉ o) : Same buffers (buffers.adjust b change) o := by
  intro p hp
  apply Store.adjust_cell_of_ne
  rintro rfl
  exact hb hp

theorem PoolOf.perm (hp : PoolOf pool f o) (h : o.Perm o') : PoolOf pool f o' where
  queue := hp.queue
  nodup := ((List.Perm.append_left f h).nodup_iff).mp hp.nodup
  size := hp.size
  allocs := by rw [hp.allocs, h.length_eq]
  live p := (hp.live p).trans (List.Perm.append_left f h).mem_iff
  rewound := hp.rewound
  cached := hp.cached
  room := hp.room

theorem PoolOf.out_of_free (hp : PoolOf pool f o) (hf : p ∈ f) : p ∉ o :=
  fun ho => (List.nodup_append.mp hp.nodup).2.2 p hf p ho rfl

theorem PoolOf.live_out (hp : PoolOf pool f o) (ho : p ∈ o) : pool.buffers.Live p :=
  (hp.live p).mpr (List.mem_append_right f ho)

theorem PoolOf.adjust (hp : PoolOf pool f o) (b : Nat) (change : buffer → buffer)
    (hfree : b ∈ f → ∀ n, (change n).next = n.next ∧ (n.pos = 0 → (change n).pos = 0) ∧
      (n.last = 0 → (change n).last = 0)) :
    PoolOf { pool with buffers := pool.buffers.adjust b change } f o := by
  refine ⟨?_, hp.nodup, hp.size, hp.allocs, fun p => Store.adjust_live.trans (hp.live p), ?_, hp.cached, hp.room⟩
  · apply hp.queue.congr
    intro p hpf
    by_cases hpb : p = b
    · exact congrFun (Store.field_adjust_keep fun n => (hfree (hpb ▸ hpf) n).1) p
    · exact Store.field_congr (Store.adjust_cell_of_ne hpb)
  · intro p hpf
    obtain ⟨n, hn, hpos, hlast⟩ := hp.rewound p hpf
    by_cases hpb : p = b
    · subst hpb
      refine ⟨change n, ?_, (hfree hpf n).2.1 hpos, (hfree hpf n).2.2 hlast⟩
      show (pool.buffers.adjust p change).cell p = _
      rw [Store.adjust_cell_self, hn]
      rfl
    · exact ⟨n, (Store.adjust_cell_of_ne hpb).trans hn, hpos, hlast⟩

theorem PoolOf.adjust_out (hp : PoolOf pool f o) (hb : b ∈ o) (change : buffer → buffer) :
    PoolOf { pool with buffers := pool.buffers.adjust b change } f o :=
  hp.adjust b change fun hf => absurd hb (hp.out_of_free hf)

/-! ## Getting a buffer -/

theorem buffer_pool_peek_spec (hp : PoolOf pool f o) :
    ∃ pool' t f', buffer_pool_peek true pool = (pool', some t) ∧ PoolOf pool' (t :: f') o ∧
      Same pool.buffers pool'.buffers o := by
  have hhead := hp.queue.chain.head_eq
  unfold buffer_pool_peek
  cases f with
  | cons t f =>
    rw [List.head?_cons] at hhead
    rw [hhead, if_pos (Option.some_ne_none t)]
    exact ⟨pool, t, f, rfl, hp, Same.refl⟩
  | nil =>
    rw [List.head?_nil] at hhead
    rw [if_neg (not_not.mpr hhead)]
    have hfresh : ∀ p ∈ o, p ≠ pool.buffers.next := fun p ho => (hp.live_out ho).ne_next
    refine ⟨_, pool.buffers.next, [], rfl, ⟨Queue.single ?_, ?_, ?_, ?_, ?_, ?_, ?_, hp.room⟩, ?_⟩
    · exact Store.field_of_cell Store.alloc_cell_self
    · exact List.nodup_cons.mpr ⟨fun ho => hfresh _ ho rfl, hp.nodup⟩
    · show pool.size + 1 = _
      rw [hp.size]
      rfl
    · show pool.allocs + 1 = _
      rw [hp.allocs, List.length_nil, List.length_singleton]
      omega
    · intro p
      refine Store.alloc_live.trans ?_
      rw [hp.live]
      simp
    · intro p hpt
      rw [List.mem_singleton.mp hpt]
      exact ⟨_, Store.alloc_cell_self, rfl, rfl⟩
    · have hsize : pool.size = 0 := hp.size
      have hroom := hp.room
      show pool.size + 1 ≤ pool.maxsize
      omega
    · exact fun p ho => Store.alloc_cell_of_ne (hfresh p ho)

theorem buffer_detach_spec (hp : PoolOf pool (t :: f) o) :
    ∃ pool', buffer_detach pool (some t) = .done pool' ∧ PoolOf pool' f (t :: o) ∧
      Same pool.buffers pool'.buffers o ∧
      pool'.buffers.cell t = (pool.buffers.cell t).map fun n => { n with next := none } := by
  have ht : t ∉ o := hp.out_of_free List.mem_cons_self
  have htf : t ∉ f := fun hf => by simpa [hf] using hp.nodup
  obtain ⟨n, hn, -⟩ := hp.rewound t List.mem_cons_self
  have hnext : nextOf pool.buffers t = n.next := Store.field_of_cell hn
  refine ⟨{ pool with
      buffers := pool.buffers.adjust t fun n => { n with next := none }
      head_next := n.next, tail := if n.next = none then none else pool.tail, size := pool.size - 1 },
    ?_, ⟨?_, ?_, ?_, ?_, ?_, ?_, ?_, hp.room⟩, same_adjust ht, Store.adjust_cell_self⟩
  · unfold buffer_detach
    rw [Store.read_of_cell hn, Outcome.done_bind, Store.modify_live (Store.live_of_cell hn)]
    rfl
  · have hqueue := hp.queue.pop
    rw [hnext] at hqueue
    exact hqueue.congr fun p hpf => Store.field_congr (same_adjust htf p hpf)
  · exact List.nodup_middle.mpr hp.nodup
  · show pool.size - 1 = _
    rw [hp.size, List.length_cons]
    omega
  · show pool.allocs = _
    rw [hp.allocs, List.length_cons, List.length_cons]
    omega
  · intro p
    refine Store.adjust_live.trans ?_
    rw [hp.live]
    simp [or_left_comm]
  · intro p hpf
    obtain ⟨m, hm, hrest⟩ := hp.rewound p (List.mem_cons_of_mem t hpf)
    exact ⟨m, (same_adjust htf p hpf).trans hm, hrest⟩
  · have hcached := hp.cached
    show pool.size - 1 ≤ pool.maxsize
    omega

theorem buffer_pool_get_spec (hp : PoolOf pool f o) :
    ∃ pool' b f', buffer_pool_get true pool = .done (pool', some b) ∧ PoolOf pool' f' (b :: o) ∧
      Same pool.buffers pool'.buffers o ∧
      ∃ n, pool'.buffers.cell b = some n ∧ n.pos = 0 ∧ n.last = 0 ∧ n.next = none := by
  obtain ⟨pool₁, b, f', hpeek, hp₁, hsame₁⟩ := buffer_pool_peek_spec hp
  obtain ⟨pool', hdetach, hp', hsame, hcell⟩ := buffer_detach_spec hp₁
  obtain ⟨n, hn, hpos, hlast⟩ := hp₁.rewound b List.mem_cons_self
  refine ⟨pool', b, f', ?_, hp', hsame₁.trans hsame, ?_⟩
  · unfold buffer_pool_get
    rw [hpeek]
    show (if some b = none then _ else _) = _
    rw [if_neg (Option.some_ne_none b), hdetach]
    rfl
  · rw [hcell, hn]
    exact ⟨_, rfl, hpos, hlast, rfl⟩

/-! ## Putting it back -/

theorem PoolOf.put (hp : PoolOf pool f (b :: o)) (hfull : ¬ pool.allocs > pool.maxsize) {head_next : Ptr}
    (hqueue : Queue (nextOf buffers) head_next (some b) (f ++ [b]))
    (hlive : ∀ p, buffers.Live p ↔ pool.buffers.Live p)
    (hrewound : ∀ p ∈ f ++ [b], ∃ n, buffers.cell p = some n ∧ n.pos = 0 ∧ n.last = 0) :
    PoolOf { pool with buffers, head_next, tail := some b, size := pool.size + 1 } (f ++ [b]) o := by
  have happend : f ++ [b] ++ o = f ++ b :: o := List.append_assoc f [b] o
  refine ⟨hqueue, ?_, ?_, ?_, ?_, hrewound, ?_, hp.room⟩
  · rw [happend]
    exact hp.nodup
  · show pool.size + 1 = _
    rw [hp.size, List.length_append, List.length_singleton]
    omega
  · show pool.allocs = _
    rw [hp.allocs, List.length_append, List.length_singleton, List.length_cons]
    omega
  · intro p
    rw [happend]
    exact (hlive p).trans (hp.live p)
  · -- The buffer that comes in was out, so there were fewer free buffers than `allocs`.
    have hallocs := hp.allocs
    rw [List.length_cons] at hallocs
    show pool.size + 1 ≤ pool.maxsize
    rw [hp.size]
    omega

theorem PoolOf.free (hp : PoolOf pool f (b :: o)) :
    PoolOf { pool with buffers := pool.buffers.drop b, allocs := pool.allocs - 1 } f o := by
  obtain ⟨hnd, hbo, hout⟩ : (f ++ o).Nodup ∧ b ∉ o ∧ b ∉ f := by
    have h := List.nodup_cons.mp (List.nodup_middle.mp hp.nodup)
    rw [List.mem_append, not_or] at h
    exact ⟨h.2, h.1.2, h.1.1⟩
  have hne : ∀ p ∈ f ++ o, p ≠ b := by
    rintro p hpm rfl
    exact (List.mem_append.mp hpm).elim hout hbo
  refine ⟨?_, hnd, hp.size, ?_, ?_, ?_, hp.cached, hp.room⟩
  · apply hp.queue.congr
    intro p hpf
    exact Store.field_congr (Store.drop_cell_of_ne (hne p (List.mem_append_left o hpf)))
  · show pool.allocs - 1 = _
    rw [hp.allocs, List.length_cons]
    omega
  · intro p
    refine Store.drop_live.trans ?_
    rw [hp.live, List.mem_append, List.mem_cons, or_left_comm, ← List.mem_append]
    constructor
    · exact fun h => h.2.resolve_left h.1
    · exact fun h => ⟨hne p h, Or.inr h⟩
  · intro p hpf
    obtain ⟨n, hn, hrest⟩ := hp.rewound p hpf
    exact ⟨n, (Store.drop_cell_of_ne (hne p (List.mem_append_left o hpf))).trans hn, hrest⟩

theorem buffer_pool_put_spec (hp : PoolOf pool f (b :: o)) :
    ∃ pool' f', buffer_pool_put pool (some b) = .done pool' ∧ PoolOf pool' f' o ∧
      Same pool.buffers pool'.buffers o ∧ pool'.buffers.next = pool.buffers.next := by
  have hb : pool.buffers.Live b := hp.live_out List.mem_cons_self
  obtain ⟨n, hn⟩ := Store.live_iff.mp hb
  obtain ⟨hnf, hno, hapart⟩ := List.nodup_append.mp hp.nodup
  have hbf : b ∉ f := fun hf => hapart b hf b List.mem_cons_self rfl
  have hbo : b ∉ o := (List.nodup_cons.mp hno).1
  unfold buffer_pool_put
  by_cases hfull : pool.allocs > pool.maxsize
  · rw [if_pos hfull, Store.free_live hb]
    refine ⟨_, f, rfl, hp.free, ?_, rfl⟩
    intro p ho
    apply Store.drop_cell_of_ne
    rintro rfl
    exact hbo ho
  · rw [if_neg hfull, Store.modify_live hb, Outcome.done_bind]
    -- The buffers once `b` is rewound.
    let cleared := pool.buffers.adjust b fun n => { n with next := none, pos := 0, last := 0 }
    have hclear : cleared.cell b = some { n with next := none, pos := 0, last := 0 } := by
      rw [Store.adjust_cell_self, hn]
      rfl
    have hold : ∀ p ∈ f, ∃ n, cleared.cell p = some n ∧ n.pos = 0 ∧ n.last = 0 := by
      intro p hpf
      obtain ⟨m, hm, hrest⟩ := hp.rewound p hpf
      exact ⟨m, (same_adjust hbf p hpf).trans hm, hrest⟩
    have hboth : ∀ p ∈ f ++ [b], ∃ n, cleared.cell p = some n ∧ n.pos = 0 ∧ n.last = 0 := by
      intro p hpm
      rcases List.mem_append.mp hpm with hpf | hpb
      · exact hold p hpf
      · rw [List.mem_singleton.mp hpb]
        exact ⟨_, hclear, rfl, rfl⟩
    have hnone : nextOf cleared b = none := Store.field_of_cell hclear
    have hqueue : Queue (nextOf cleared) pool.head_next pool.tail f :=
      hp.queue.congr fun p hpf => Store.field_congr (same_adjust hbf p hpf)
    cases htail : pool.tail with
    | none =>
      rw [htail] at hqueue
      obtain rfl := hqueue.tail_none_iff.mp rfl
      rw [if_pos rfl]
      exact ⟨_, [b], rfl, hp.put hfull (Queue.single hnone) (fun _ => Store.adjust_live) hboth, same_adjust hbo, rfl⟩
    | some q =>
      rw [htail] at hqueue
      have hqf : q ∈ f := List.mem_of_getLast? hqueue.last.symm
      have hq : cleared.Live q := Store.adjust_live.mpr ((hp.live q).mpr (List.mem_append_left _ hqf))
      have hqo : q ∉ o := fun ho => hp.out_of_free hqf (List.mem_cons_of_mem b ho)
      have hlink : nextOf (cleared.adjust q fun n => { n with next := some b }) =
          Function.update (nextOf cleared) q (some b) := Store.field_adjust_set (fun _ => rfl) hq
      rw [if_neg (Option.some_ne_none q), Store.modify_live hq]
      refine ⟨_, f ++ [b], rfl, hp.put hfull ?_ ?_ ?_, ?_, rfl⟩
      · rw [hlink]
        exact hqueue.push hnf hbf hnone
      · exact fun p => Store.adjust_live.trans Store.adjust_live
      · intro p hpm
        obtain ⟨m, hm, hpos, hlast⟩ := hboth p hpm
        by_cases hpq : p = q
        · subst hpq
          refine ⟨{ m with next := some b }, ?_, hpos, hlast⟩
          rw [Store.adjust_cell_self, hm]
          rfl
        · exact ⟨m, (Store.adjust_cell_of_ne hpq).trans hm, hpos, hlast⟩
      · exact (same_adjust hbo).trans (same_adjust hqo)

end Akio.Buffer
