import Akio.Buffer.Pool

/-!
# Chains, and `shrink_chain`

The buffers of a chain are `ms` and then `w`. Those of `ms` are full to the end and have bytes to read, and
`w` is where bytes come in. Where `w` has none to read it is rewound.
-/

namespace Akio.Buffer

open Block

variable {pool pool' : buffer_pool} {chain chain' : buffer_chain} {buffers buffers' : Store buffer}
  {n m : buffer} {f o ms l : List Nat} {w p t r fuel size : Nat} {xs ys : List byte}

def Full (n : buffer) : Prop := n.pos < n.last ∧ n.last = BUFFER_CAP

structure Filling (n : buffer) : Prop where
  pos : n.pos ≤ n.last
  last : n.last ≤ BUFFER_CAP
  rewound : n.pos = n.last → n.last = 0

structure ChainOf (buffers : Store buffer) (chain : buffer_chain) (ms : List Nat) (w : Nat) : Prop where
  linked : Chain (nextOf buffers) chain.rbuf (ms ++ [w]) none
  wbuf : chain.wbuf = some w
  full : ∀ p ∈ ms, ∃ n, buffers.cell p = some n ∧ Full n
  filling : ∃ n, buffers.cell w = some n ∧ Filling n

/-- The same of a chain whose last buffer need not be rewound where it has no bytes. -/
structure WellFormed (buffers : Store buffer) (chain : buffer_chain) (ms : List Nat) (w : Nat) : Prop where
  linked : Chain (nextOf buffers) chain.rbuf (ms ++ [w]) none
  wbuf : chain.wbuf = some w
  full : ∀ p ∈ ms, ∃ n, buffers.cell p = some n ∧ Full n
  last : ∃ n, buffers.cell w = some n ∧ n.pos ≤ n.last ∧ n.last ≤ BUFFER_CAP

theorem ChainOf.wellFormed (hc : ChainOf buffers chain ms w) : WellFormed buffers chain ms w := by
  obtain ⟨n, hn, hfilling⟩ := hc.filling
  exact ⟨hc.linked, hc.wbuf, hc.full, n, hn, hfilling.pos, hfilling.last⟩

theorem WellFormed.chainOf (hc : WellFormed buffers chain ms w)
    (hrewound : ∀ n, buffers.cell w = some n → n.pos = n.last → n.last = 0) : ChainOf buffers chain ms w := by
  obtain ⟨n, hn, hpos, hlast⟩ := hc.last
  exact ⟨hc.linked, hc.wbuf, hc.full, n, hn, hpos, hlast, hrewound n hn⟩

/-- The unread bytes of the buffers `l`. -/
def content (buffers : Store buffer) (l : List Nat) : List byte := l.flatMap (buffers.field unread [])

theorem content_append {l₁ l₂ : List Nat} :
    content buffers (l₁ ++ l₂) = content buffers l₁ ++ content buffers l₂ := List.flatMap_append

theorem content_single (h : buffers.cell p = some n) : content buffers [p] = unread n := by
  unfold content
  rw [List.flatMap_singleton, Store.field_of_cell h]

theorem content_cons (h : buffers.cell p = some n) : content buffers (p :: l) = unread n ++ content buffers l := by
  rw [← content_single h, ← content_append, List.singleton_append]

theorem content_same (h : Same buffers buffers' l) : content buffers' l = content buffers l := by
  unfold content
  apply List.flatMap_congr
  exact fun p hp => Store.field_congr (h p hp)

theorem next_of_cell (h : buffers.cell p = some n) : nextOf buffers p = n.next := Store.field_of_cell h

theorem length_unread : (unread n).length = buffer_rsize n := length_slice

theorem WellFormed.same (hc : WellFormed buffers chain ms w) (h : Same buffers buffers' (ms ++ [w])) :
    WellFormed buffers' chain ms w where
  linked := hc.linked.congr fun p hp => Store.field_congr (h p hp)
  wbuf := hc.wbuf
  full p hp := by
    rw [h p (List.mem_append_left [w] hp)]
    exact hc.full p hp
  last := by
    rw [h w (by simp)]
    exact hc.last

theorem ChainOf.same (hc : ChainOf buffers chain ms w) (h : Same buffers buffers' (ms ++ [w])) :
    ChainOf buffers' chain ms w := by
  apply (hc.wellFormed.same h).chainOf
  obtain ⟨n, hn, hfilling⟩ := hc.filling
  intro n' hn'
  rw [h w (by simp), hn] at hn'
  rw [← Option.some.inj hn']
  exact hfilling.rewound

theorem ChainOf.first (hc : ChainOf buffers chain ms w) : ∃ b n, chain.rbuf = some b ∧ buffers.cell b = some n := by
  cases ms with
  | nil =>
    obtain ⟨n, hn, -⟩ := hc.filling
    exact ⟨w, n, hc.linked.1, hn⟩
  | cons p ms =>
    obtain ⟨n, hn, -⟩ := hc.full p List.mem_cons_self
    exact ⟨p, n, hc.linked.1, hn⟩

theorem WellFormed.tail (hc : WellFormed buffers chain (p :: ms) w) (hp : buffers.cell p = some n) :
    WellFormed buffers { chain with rbuf := n.next } ms w where
  linked := by
    rw [← next_of_cell hp]
    exact hc.linked.2
  wbuf := hc.wbuf
  full q hq := hc.full q (List.mem_cons_of_mem p hq)
  last := hc.last

/-! ## Reading from one buffer -/

theorem WellFormed.read_first (hc : WellFormed buffers chain (p :: ms) w) (hnd : (p :: ms ++ [w]).Nodup)
    (hp : buffers.cell p = some n) (hsize : size < buffer_rsize n) :
    WellFormed (buffers.adjust p fun n => { n with pos := n.pos + size }) chain (p :: ms) w ∧
    content (buffers.adjust p fun n => { n with pos := n.pos + size }) (p :: ms ++ [w]) =
      (content buffers (p :: ms ++ [w])).drop size := by
  have hcell : (buffers.adjust p fun n => { n with pos := n.pos + size }).cell p =
      some { n with pos := n.pos + size } := by
    rw [Store.adjust_cell_self, hp]
    rfl
  have hsame : Same buffers (buffers.adjust p fun n => { n with pos := n.pos + size }) (ms ++ [w]) :=
    same_adjust (List.nodup_cons.mp hnd).1
  unfold buffer_rsize at hsize
  refine ⟨⟨?_, hc.wbuf, ?_, ?_⟩, ?_⟩
  · apply hc.linked.congr
    intro q hq
    rcases List.mem_cons.mp hq with rfl | hq
    · rw [next_of_cell hcell, next_of_cell hp]
    · exact Store.field_congr (hsame q hq)
  · intro q hq
    rcases List.mem_cons.mp hq with rfl | hq
    · obtain ⟨n', hn', hfull⟩ := hc.full q List.mem_cons_self
      obtain rfl := Option.some.inj (hp.symm.trans hn')
      exact ⟨_, hcell, by show n.pos + size < n.last; omega, hfull.2⟩
    · rw [hsame q (List.mem_append_left [w] hq)]
      exact hc.full q (List.mem_cons_of_mem p hq)
  · rw [hsame w (by simp)]
    exact hc.last
  · rw [List.cons_append, content_cons hcell, content_cons hp, content_same hsame, List.drop_append_of_le_length]
    · congr 1
      exact drop_slice.symm
    · rw [length_unread]
      unfold buffer_rsize
      omega

theorem WellFormed.read_last (hc : WellFormed buffers chain [] w) (hw : buffers.cell w = some n)
    (hsize : size ≤ buffer_rsize n) (change : buffer → buffer)
    (hchange : change n =
      if n.pos + size = n.last then { n with pos := 0, last := 0 } else { n with pos := n.pos + size }) :
    WellFormed (buffers.adjust w change) chain [] w ∧
    content (buffers.adjust w change) [w] = (content buffers [w]).drop size ∧
    ∀ n', (buffers.adjust w change).cell w = some n' → n'.pos = n'.last → n'.last = 0 := by
  have hcell : (buffers.adjust w change).cell w = some (change n) := by
    rw [Store.adjust_cell_self, hw]
    rfl
  obtain ⟨n', hn', hpos, hlast⟩ := hc.last
  obtain rfl := Option.some.inj (hw.symm.trans hn')
  have hnext : (change n).next = n.next := by
    rw [hchange]
    split_ifs <;> rfl
  unfold buffer_rsize at hsize
  refine ⟨⟨?_, hc.wbuf, by simp, change n, hcell, ?_⟩, ?_, ?_⟩
  · apply hc.linked.congr
    intro q hq
    rw [List.mem_singleton.mp hq, next_of_cell hcell, next_of_cell hw]
    exact hnext
  · rw [hchange]
    split_ifs with hall
    · exact ⟨Nat.le_refl 0, Nat.zero_le _⟩
    · exact ⟨by show n.pos + size ≤ n.last; omega, hlast⟩
  · rw [content_single hcell, content_single hw, hchange]
    unfold unread
    rw [drop_slice]
    split_ifs with hall
    · rw [hall]
      exact slice_self.trans slice_self.symm
    · rfl
  · intro n' hn'
    rw [← Option.some.inj (hcell.symm.trans hn'), hchange]
    split_ifs with hall
    · exact fun _ => rfl
    · exact fun heq => absurd heq hall

/-! ## The loop -/

/-- What a call leaves of the rest of the system: the buffers `o` and the counts of the chain. -/
structure Shrunk (pool : buffer_pool) (chain : buffer_chain) (ms : List Nat) (w : Nat) (o : List Nat) (size : Nat)
    (pool' : buffer_pool) (chain' : buffer_chain) (ms' : List Nat) (f' : List Nat) : Prop where
  poolOf : PoolOf pool' f' (ms' ++ [w] ++ o)
  chainOf : ChainOf pool'.buffers chain' ms' w
  content : content pool'.buffers (ms' ++ [w]) = (content pool.buffers (ms ++ [w])).drop size
  same : Same pool.buffers pool'.buffers o
  sent : chain'.sent = chain.sent
  recv : chain'.recv = chain.recv

/-- `buffer_pool_put` for the buffers `l`, one after the other. -/
def putAll (pool : buffer_pool) : List Nat → Outcome buffer_pool
  | [] => return pool
  | b :: l => do
    let pool ← buffer_pool_put pool (some b)
    putAll pool l

/-- The buffers `dropped` are put back, as all their bytes are among the first `size`. Then the markers of
the first buffer that is left are moved, and nothing else. -/
structure Drops (pool : buffer_pool) (chain : buffer_chain) (ms : List Nat) (w : Nat) (o : List Nat) (size : Nat)
    (pool' : buffer_pool) (chain' : buffer_chain) (dropped rest f' : List Nat) : Prop where
  split : ms = dropped ++ rest
  whole : (content pool.buffers dropped).length ≤ size
  part : ∀ p l, rest = p :: l → size < (content pool.buffers (dropped ++ [p])).length
  put : ∃ pool₁ b change, putAll pool dropped = .done pool₁ ∧ chain'.rbuf = some b ∧
    (∀ n : buffer, (change n).next = n.next ∧ (change n).data = n.data) ∧
    pool' = { pool₁ with buffers := pool₁.buffers.adjust b change }
  poolOf : PoolOf pool' f' (rest ++ [w] ++ o)
  wellFormed : WellFormed pool'.buffers chain' rest w
  left : content pool'.buffers (rest ++ [w]) = (content pool.buffers (ms ++ [w])).drop size
  kept : rest ≠ [] → pool'.buffers.cell w = pool.buffers.cell w
  rewound : rest = [] → ∀ n, pool'.buffers.cell w = some n → n.pos = n.last → n.last = 0
  same : Same pool.buffers pool'.buffers o
  sent : chain'.sent = chain.sent
  recv : chain'.recv = chain.recv

theorem Drops.cons {pool₁ : buffer_pool} {chain₁ : buffer_chain} {dropped rest f' : List Nat}
    (hd : Drops pool₁ chain₁ ms w o (size - buffer_rsize n) pool' chain' dropped rest f')
    (hput : buffer_pool_put pool (some p) = .done pool₁) (hn : pool.buffers.cell p = some n)
    (hsame : Same pool.buffers pool₁.buffers (ms ++ [w] ++ o)) (hall : buffer_rsize n ≤ size)
    (hsent : chain₁.sent = chain.sent) (hrecv : chain₁.recv = chain.recv) :
    Drops pool chain (p :: ms) w o size pool' chain' (p :: dropped) rest f' := by
  have hsplit := hd.split
  have hcontent : ∀ l : List Nat, (∀ q ∈ l, q ∈ ms ++ [w]) → content pool₁.buffers l = content pool.buffers l :=
    fun l hl => content_same (hsame.mono fun q hq => List.mem_append_left o (hl q hq))
  refine ⟨?_, ?_, ?_, ?_, hd.poolOf, hd.wellFormed, ?_, ?_, hd.rewound, ?_, hd.sent.trans hsent, hd.recv.trans hrecv⟩
  · rw [hsplit]
    rfl
  · have hwhole := hd.whole
    rw [hcontent dropped fun q hq => by simp [hsplit, hq]] at hwhole
    rw [content_cons hn, List.length_append, length_unread]
    omega
  · intro q l hrest
    have hpart := hd.part q l hrest
    have hmem : ∀ q' ∈ dropped ++ [q], q' ∈ ms ++ [w] := by
      intro q' hq'
      rw [hsplit, hrest]
      rcases List.mem_append.mp hq' with hin | hlast
      · simp [hin]
      · simp [List.mem_singleton.mp hlast]
    rw [hcontent _ hmem] at hpart
    rw [List.cons_append, content_cons hn, List.length_append, length_unread]
    omega
  · obtain ⟨pool₂, b, change, hputs, hrest⟩ := hd.put
    refine ⟨pool₂, b, change, ?_, hrest⟩
    unfold putAll
    rw [hput]
    exact hputs
  · have hdrained : (unread n).drop size = [] := by
      apply List.drop_eq_nil_of_le
      rw [length_unread]
      exact hall
    rw [hd.left, hcontent _ fun _ hq => hq, List.cons_append, content_cons hn, List.drop_append, hdrained,
      length_unread, List.nil_append]
  · exact fun hrest => (hd.kept hrest).trans (hsame w (by simp))
  · exact (hsame.mono fun q hq => List.mem_append_right _ hq).trans hd.same

theorem shrinkLoop_drops (hp : PoolOf pool f (ms ++ [w] ++ o)) (hc : WellFormed pool.buffers chain ms w)
    (hsize : size ≤ (content pool.buffers (ms ++ [w])).length) (hfuel : ms.length < fuel) :
    ∃ pool' chain' dropped rest f', shrinkLoop fuel pool chain size = .done (pool', chain', chain'.rbuf) ∧
      Drops pool chain ms w o size pool' chain' dropped rest f' := by
  induction ms generalizing pool chain f fuel size with
  | nil =>
    obtain ⟨k, rfl⟩ : ∃ k, fuel = k + 1 := ⟨fuel - 1, by simp at hfuel; omega⟩
    obtain ⟨n, hn, -⟩ := hc.last
    have hrbuf : chain.rbuf = some w := hc.linked.1
    rw [List.nil_append, content_single hn, length_unread] at hsize
    have hw : w ∈ [] ++ [w] ++ o := by simp
    have hwo : w ∉ o := by
      have := (List.nodup_append.mp hp.nodup).2.1
      simpa using (List.nodup_cons.mp this).1
    unfold shrinkLoop
    dsimp only
    rw [hrbuf, hc.wbuf, Store.read_of_cell hn, Outcome.done_bind, if_neg (not_not.mpr rfl), if_pos hsize,
      Store.modify_live (Store.live_of_cell hn)]
    obtain ⟨hc', hcontent, hrewound⟩ := hc.read_last hn hsize (fun n =>
      if n.pos + size = n.last then { n with pos := 0, last := 0 } else { n with pos := n.pos + size }) rfl
    refine ⟨_, chain, [], [], f, by rw [hrbuf]; rfl, rfl, Nat.zero_le _, by simp, ?_, hp.adjust_out hw _, hc',
      hcontent, by simp, fun _ => hrewound, same_adjust hwo, rfl, rfl⟩
    refine ⟨pool, w, _, rfl, hrbuf, ?_, rfl⟩
    intro n
    split_ifs <;> exact ⟨rfl, rfl⟩
  | cons p ms ih =>
    obtain ⟨k, rfl⟩ : ∃ k, fuel = k + 1 := ⟨fuel - 1, by simp at hfuel; omega⟩
    rw [List.length_cons] at hfuel
    obtain ⟨n, hn, hfull⟩ := hc.full p List.mem_cons_self
    have hrbuf : chain.rbuf = some p := hc.linked.1
    have hnd := (List.nodup_append.mp hp.nodup).2.1
    have hpw : p ∉ ms ++ [w] := (List.nodup_cons.mp (List.nodup_append.mp hnd).1).1
    have hne : some p ≠ some w := by
      intro heq
      simp [Option.some.inj heq] at hpw
    unfold shrinkLoop
    dsimp only
    rw [hrbuf, hc.wbuf, Store.read_of_cell hn, Outcome.done_bind, if_pos hne]
    rw [List.cons_append, content_cons hn, List.length_append, length_unread] at hsize
    by_cases hall : size ≥ buffer_rsize n
    · -- The first buffer is drained and goes to the pool.
      obtain ⟨pool₁, f₁, hput, hp₁, hsame₁, -⟩ := buffer_pool_put_spec hp
      have hsub : Same pool.buffers pool₁.buffers (ms ++ [w]) := hsame₁.mono fun q hq => List.mem_append_left o hq
      obtain ⟨pool', chain', dropped, rest, f', hrun, hd⟩ := ih hp₁ ((hc.tail hn).same hsub)
        (show size - buffer_rsize n ≤ _ by rw [content_same hsub]; omega) (show ms.length < k by omega)
      rw [if_pos hall]
      refine ⟨pool', chain', p :: dropped, rest, f', ?_, hd.cons hput hn hsame₁ hall rfl rfl⟩
      exact (congrArg (· >>= _) hput).trans (by rw [Outcome.done_bind, ← hc.wbuf]; exact hrun)
    · -- Some of its bytes are left.
      have hpo : p ∉ o := fun hq => (List.nodup_append.mp hnd).2.2 p (by simp) p hq rfl
      have hmem : p ∈ p :: ms ++ [w] ++ o := by simp
      have hwp : w ≠ p := fun heq => hne (congrArg some heq.symm)
      obtain ⟨hc', hcontent⟩ := hc.read_first (List.nodup_append.mp hnd).1 hn (Nat.lt_of_not_le hall)
      rw [if_neg hall, Store.modify_live (Store.live_of_cell hn)]
      refine ⟨_, chain, [], p :: ms, f, by rw [hrbuf]; rfl, rfl, Nat.zero_le _, ?_, ?_, hp.adjust_out hmem _, hc',
        hcontent, fun _ => Store.adjust_cell_of_ne hwp, by simp, same_adjust hpo, rfl, rfl⟩
      · intro q l hrest
        rw [← (List.cons.inj hrest).1, List.nil_append, content_single hn, length_unread]
        omega
      · exact ⟨pool, p, fun n => { n with pos := n.pos + size }, rfl, hrbuf, fun n => ⟨rfl, rfl⟩, rfl⟩

theorem Drops.shrunk {dropped rest f' : List Nat} (hc : ChainOf pool.buffers chain ms w)
    (hd : Drops pool chain ms w o size pool' chain' dropped rest f') :
    Shrunk pool chain ms w o size pool' chain' rest f' := by
  refine ⟨hd.poolOf, hd.wellFormed.chainOf ?_, hd.left, hd.same, hd.sent, hd.recv⟩
  by_cases hrest : rest = []
  · exact hd.rewound hrest
  · obtain ⟨n, hn, hfilling⟩ := hc.filling
    intro n' hn'
    rw [hd.kept hrest, hn] at hn'
    rw [← Option.some.inj hn']
    exact hfilling.rewound

theorem shrinkLoop_spec (hp : PoolOf pool f (ms ++ [w] ++ o)) (hc : ChainOf pool.buffers chain ms w)
    (hsize : size ≤ (content pool.buffers (ms ++ [w])).length) (hfuel : ms.length < fuel) :
    ∃ pool' chain' ms' f', shrinkLoop fuel pool chain size = .done (pool', chain', chain'.rbuf) ∧
      Shrunk pool chain ms w o size pool' chain' ms' f' := by
  obtain ⟨pool', chain', dropped, rest, f', hrun, hd⟩ := shrinkLoop_drops hp hc.wellFormed hsize hfuel
  exact ⟨pool', chain', rest, f', hrun, hd.shrunk hc⟩

end Akio.Buffer
