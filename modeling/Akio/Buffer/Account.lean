import Akio.Buffer.Runs
import Mathlib.Data.List.InsertIdx

/-!
# The accounts of the pool

Callers of `buffer_pool_get` hold buffers, and the chains have the others that are out. A caller may write to
a buffer it holds, put it back or start a chain with it, and may take the buffers of a chain over.
-/

namespace Akio.Buffer

structure site where
  world : Buffer.world
  held : List Nat

/-- The buffers of a chain from `rbuf` on. -/
def members (pool : buffer_pool) (chain : buffer_chain) : List Nat :=
  walk (nextOf pool.buffers) pool.buffers.next chain.rbuf

def outstanding (s : site) : List Nat :=
  s.world.conns.flatMap (fun c => members s.world.pool c.chain) ++ s.held

inductive Use where
  | get
  | put (b : Nat)
  | write (b : Nat) (n : buffer)
  | adopt (b : Nat)
  | release (i : Nat)
  | recv (i : Nat) (inputs : List Input)
  | send (i : Nat) (outputs : List Output)

/-- What a caller has written to a buffer counts as delivered to the chain it starts with it. -/
def use (s : site) : Use → Outcome site
  | .get => do
    let (pool, b) ← buffer_pool_get true s.world.pool
    return { world := { s.world with pool }, held := s.held ++ b.toList }
  | .put b => do
    let pool ← buffer_pool_put s.world.pool b
    return { world := { s.world with pool }, held := s.held.erase b }
  | .write b n => do
    let buffers ← s.world.pool.buffers.modify b fun _ => n
    return { s with world := { s.world with pool := { s.world.pool with buffers } } }
  | .adopt b => do
    let n ← s.world.pool.buffers.read b
    let chain := { rbuf := b, wbuf := b, sent := 0, recv := 0 }
    let conns := s.world.conns ++ [{ chain, delivered := unread n, accepted := [] }]
    return { world := { s.world with conns }, held := s.held.erase b }
  | .release i => do
    let c ← Outcome.ofOption s.world.conns[i]?
    let conns := s.world.conns.eraseIdx i
    return { world := { s.world with conns }, held := s.held ++ members s.world.pool c.chain }
  | .recv i inputs => do
    let (world, _) ← recvOn s.world i inputs
    return { s with world }
  | .send i outputs => do
    let (world, _) ← sendOn s.world i outputs
    return { s with world }

/-- A caller uses buffers that it holds, and a chain starts with one that is well formed. -/
def Allowed (s : site) : Use → Prop
  | .put b | .write b _ => b ∈ s.held
  | .adopt b => b ∈ s.held ∧ ∃ n ∈ s.world.pool.buffers.cell b, Filling n ∧ n.next = none
  | _ => True

def Uses (s : site) (u : Use) (s' : site) : Prop := Allowed s u ∧ use s u = .done s'

/-- The buffers `free` are those of the free list. -/
structure Accounted (s : site) (free : List Nat) : Prop where
  queue : Queue (nextOf s.world.pool.buffers) s.world.pool.head_next s.world.pool.tail free
  nodup : free.Nodup
  size : s.world.pool.size = free.length
  cached : s.world.pool.size ≤ s.world.pool.maxsize
  allocs : s.world.pool.allocs = s.world.pool.size + (outstanding s).length
  rewound : ∀ p ∈ free, ∃ n, s.world.pool.buffers.cell p = some n ∧ n.pos = 0 ∧ n.last = 0
  apart : ∀ p ∈ free, p ∉ outstanding s
  distinct : (outstanding s).Nodup

variable {s s' : site} {w w' : world} {f h : List Nat} {cs : List (conn × List Nat)} {i b : Nat}

theorem Inv.members (hi : Inv w h f cs) {x : conn × List Nat} (hx : x ∈ cs) :
    members w.pool x.1.chain = x.2 := by
  obtain ⟨ms, wb, hbs, hchain, -⟩ := hi.carries x hx
  have hsub := List.sublist_flatten_of_mem (List.mem_map_of_mem (f := Prod.snd) hx)
  have hle := (hsub.trans (List.sublist_append_left _ h)).length_le
  unfold Buffer.members
  rw [hbs] at hle ⊢
  exact hchain.linked.walk_of_le (Nat.le_trans hle hi.pool.length_le)

theorem Inv.outstanding (hi : Inv s.world s.held f cs) :
    outstanding s = (cs.map Prod.snd).flatten ++ s.held := by
  unfold Buffer.outstanding
  rw [hi.conns, List.flatMap_map, List.flatMap_congr fun x hx => hi.members hx]
  rfl

theorem Inv.accounted (hi : Inv s.world s.held f cs) : Accounted s f := by
  have hp := hi.pool
  rw [← hi.outstanding] at hp
  obtain ⟨hf, ho, -⟩ := List.nodup_append.mp hp.nodup
  refine ⟨hp.queue, hf, hp.size, hp.cached, ?_, hp.rewound, fun p => hp.out_of_free, ho⟩
  rw [hp.allocs, hp.size]

/-! ## What each use keeps -/

theorem Inv.same {h' f' : List Nat} {pool' : buffer_pool} (hi : Inv w h f cs)
    (hp : PoolOf pool' f' ((cs.map Prod.snd).flatten ++ h'))
    (hsame : Same w.pool.buffers pool'.buffers (cs.map Prod.snd).flatten) :
    Inv { w with pool := pool' } h' f' cs where
  conns := hi.conns
  pool := hp
  carries x hx := (hi.carries x hx).same fun p hpx =>
    hsame p (List.mem_flatten.mpr ⟨x.2, List.mem_map_of_mem hx, hpx⟩)

theorem get_spec (hi : Inv s.world s.held f cs) :
    ∃ s', use s .get = .done s' ∧ ∃ f' cs', Inv s'.world s'.held f' cs' := by
  obtain ⟨pool', b, f', hget, hp, hsame, -⟩ := buffer_pool_get_spec hi.pool
  have hperm : (b :: ((cs.map Prod.snd).flatten ++ s.held)).Perm ((cs.map Prod.snd).flatten ++ (s.held ++ [b])) := by
    rw [← List.append_assoc]
    exact (List.perm_append_singleton b _).symm
  refine ⟨⟨{ s.world with pool := pool' }, s.held ++ [b]⟩, ?_, f', cs, ?_⟩
  · unfold use
    exact (congrArg (· >>= _) hget).trans rfl
  · exact hi.same (hp.perm hperm) (hsame.mono fun p hpf => List.mem_append_left _ hpf)

theorem put_spec (hi : Inv s.world s.held f cs) (hb : b ∈ s.held) :
    ∃ s', use s (.put b) = .done s' ∧ ∃ f' cs', Inv s'.world s'.held f' cs' := by
  have hperm : ((cs.map Prod.snd).flatten ++ s.held).Perm (b :: ((cs.map Prod.snd).flatten ++ s.held.erase b)) :=
    ((List.perm_cons_erase hb).append_left _).trans List.perm_middle
  obtain ⟨pool', f', hput, hp, hsame, -⟩ := buffer_pool_put_spec (hi.pool.perm hperm)
  refine ⟨⟨{ s.world with pool := pool' }, s.held.erase b⟩, ?_, f', cs, ?_⟩
  · unfold use
    exact (congrArg (· >>= _) hput).trans rfl
  · exact hi.same hp (hsame.mono fun p hpf => List.mem_append_left _ hpf)

theorem write_spec (hi : Inv s.world s.held f cs) (hb : b ∈ s.held) (n : buffer) :
    ∃ s', use s (.write b n) = .done s' ∧ ∃ f' cs', Inv s'.world s'.held f' cs' := by
  have hout : b ∈ (cs.map Prod.snd).flatten ++ s.held := List.mem_append_right _ hb
  have hbc : b ∉ (cs.map Prod.snd).flatten := by
    have hnodup := (List.nodup_append.mp hi.pool.nodup).2.1
    exact fun hin => (List.nodup_append.mp hnodup).2.2 b hin b hb rfl
  let buffers := s.world.pool.buffers.adjust b fun _ => n
  refine ⟨{ s with world := { s.world with pool := { s.world.pool with buffers } } }, ?_, f, cs,
    hi.same (hi.pool.adjust_out hout fun _ => n) (same_adjust hbc)⟩
  unfold use
  dsimp only
  rw [Store.modify_live (hi.pool.live_out hout)]
  rfl

theorem adopt_spec (hi : Inv s.world s.held f cs) (hallowed : Allowed s (.adopt b)) :
    ∃ s', use s (.adopt b) = .done s' ∧ ∃ f' cs', Inv s'.world s'.held f' cs' := by
  obtain ⟨hb, n, hn, hfilling, hnext⟩ := hallowed
  have hperm : ((cs.map Prod.snd).flatten ++ s.held).Perm ((cs.map Prod.snd).flatten ++ [b] ++ s.held.erase b) := by
    rw [List.append_assoc]
    exact (List.perm_cons_erase hb).append_left _
  let c : conn := ⟨⟨some b, some b, 0, 0⟩, unread n, []⟩
  refine ⟨⟨{ s.world with conns := s.world.conns ++ [c] }, s.held.erase b⟩, ?_, f, cs ++ [(c, [b])], ?_, ?_, ?_⟩
  · unfold use
    dsimp only
    rw [Store.read_of_cell hn]
    rfl
  · rw [List.map_append, ← hi.conns]
    rfl
  · rw [List.map_append, List.flatten_append]
    exact hi.pool.perm hperm
  · intro x hx
    rcases List.mem_append.mp hx with hold | hnew
    · exact hi.carries x hold
    · rw [List.mem_singleton.mp hnew]
      refine ⟨[], b, rfl, ⟨⟨rfl, (next_of_cell hn).trans hnext⟩, rfl, by simp, n, hn, hfilling⟩, ?_⟩
      show [] ++ content s.world.pool.buffers [b] = unread n
      rw [content_single hn, List.nil_append]

theorem release_spec (hi : Inv s.world s.held f cs) (hdone : use s (.release i) = .done s') :
    ∃ f' cs', Inv s'.world s'.held f' cs' := by
  obtain ⟨c, hc, hpure⟩ := Outcome.bind_eq_done.mp hdone
  obtain rfl := Outcome.done.inj hpure
  replace hc := Outcome.ofOption_eq_done.mp hc
  rw [hi.conns, List.getElem?_map, Option.map_eq_some_iff] at hc
  obtain ⟨x, hx, rfl⟩ := hc
  obtain ⟨hlt, rfl⟩ := List.getElem?_eq_some_iff.mp hx
  have hmembers := hi.members (List.getElem_mem hlt)
  have hperm : ((cs.map Prod.snd).flatten ++ s.held).Perm (others cs i ++ (s.held ++ cs[i].2)) := by
    refine ((perm_others hlt).append_right s.held).trans ?_
    rw [List.append_assoc]
    refine List.perm_append_comm.trans ?_
    rw [List.append_assoc]
  refine ⟨f, cs.eraseIdx i, ?_, ?_, ?_⟩
  · show s.world.conns.eraseIdx i = _
    rw [hi.conns, List.eraseIdx_map]
  · show PoolOf s.world.pool f (others cs i ++ (s.held ++ _))
    rw [hmembers]
    exact hi.pool.perm hperm
  · exact fun x hx => hi.carries x (List.mem_of_mem_eraseIdx hx)

theorem Uses.inv {u : Use} (hi : Inv s.world s.held f cs) (huses : Uses s u s') :
    ∃ f' cs', Inv s'.world s'.held f' cs' := by
  obtain ⟨hallowed, hdone⟩ := huses
  cases u with
  | get =>
    obtain ⟨s₁, hget, hinv⟩ := get_spec hi
    obtain rfl := Outcome.done.inj (hget.symm.trans hdone)
    exact hinv
  | put b =>
    obtain ⟨s₁, hput, hinv⟩ := put_spec hi hallowed
    obtain rfl := Outcome.done.inj (hput.symm.trans hdone)
    exact hinv
  | write b n =>
    obtain ⟨s₁, hwrite, hinv⟩ := write_spec hi hallowed n
    obtain rfl := Outcome.done.inj (hwrite.symm.trans hdone)
    exact hinv
  | adopt b =>
    obtain ⟨s₁, hadopt, hinv⟩ := adopt_spec hi hallowed
    obtain rfl := Outcome.done.inj (hadopt.symm.trans hdone)
    exact hinv
  | release i => exact release_spec hi hdone
  | recv i inputs =>
    obtain ⟨⟨w, ret⟩, hrecv, hpure⟩ := Outcome.bind_eq_done.mp hdone
    obtain rfl := Outcome.done.inj hpure
    exact Step.inv hi (show Step s.world (.recv i inputs) w from ⟨ret, hrecv⟩)
  | send i outputs =>
    obtain ⟨⟨w, ret⟩, hsend, hpure⟩ := Outcome.bind_eq_done.mp hdone
    obtain rfl := Outcome.done.inj hpure
    exact Step.inv hi (show Step s.world (.send i outputs) w from ⟨ret, hsend⟩)

/-! ## Whole runs -/

/-- After every run of uses of a new pool its counters are right, its free buffers are rewound, none of them
is out, and there are no more than the bound. -/
theorem pool_accounted_of_run {maxsize : Int} {pool : buffer_pool} {uses : List Use}
    (hnew : buffer_pool_create true maxsize = some pool) (hrun : Run Uses ⟨⟨pool, []⟩, []⟩ uses s) :
    ∃ free, Accounted s free := by
  have hinv : ∃ f cs, Inv s.world s.held f cs := by
    apply hrun.invariant (P := fun s => ∃ f cs, Inv s.world s.held f cs) _ ⟨_, _, new_inv hnew⟩
    rintro s u s' ⟨f, cs, hi⟩ huses
    exact huses.inv hi
  obtain ⟨f, cs, hi⟩ := hinv
  exact ⟨f, hi.accounted⟩

instance (n : buffer) : Decidable (Filling n) :=
  decidable_of_iff (n.pos ≤ n.last ∧ n.last ≤ BUFFER_CAP ∧ (n.pos = n.last → n.last = 0))
    ⟨fun h => ⟨h.1, h.2.1, h.2.2⟩, fun h => ⟨h.pos, h.last, h.rewound⟩⟩

instance (s : site) : (u : Use) → Decidable (Allowed s u)
  | .get | .release _ | .recv .. | .send .. => .isTrue trivial
  | .put _ | .write .. | .adopt _ => by unfold Allowed; infer_instance

/-- A use found by computing it. -/
def uses? (s : site) (u : Use) : Option site :=
  if Allowed s u then
    match use s u with
    | .done s' => some s'
    | _ => none
  else none

theorem uses_of_uses? {u : Use} (h : uses? s u = some s') : Uses s u s' := by
  unfold uses? at h
  split_ifs at h with hallowed
  split at h
  · next hdone => exact ⟨hallowed, Option.some.inj h ▸ hdone⟩
  · cases h

/-- Uses of a pool for a run on fixed input. -/
def sampleUses : List Use :=
  [.get, .adopt 0, .get, .recv 0 [.bytes 1 [2, 3]], .put 1, .release 0, .put 0]

def sampleSite : site := ((sampleUses.foldlM uses? ⟨⟨newPool, []⟩, []⟩).get (by decide))

theorem pool_accounted_sample :
    sampleSite.world.pool.size = 3 ∧ sampleSite.world.pool.allocs = 3 ∧ ∃ free, Accounted sampleSite free :=
  ⟨by decide, by decide, pool_accounted_of_run (show buffer_pool_create true 10 = some newPool from rfl)
    (Run.of_foldlM (fun _ _ _ => uses_of_uses?) (Option.some_get _).symm)⟩

end Akio.Buffer
