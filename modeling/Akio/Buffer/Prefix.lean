import Akio.Buffer.Drain

/-!
# The prefix that `shrink_chain` drops

The first `size` bytes go, with the buffers that have no others. The last buffer stays in any case.
-/

namespace Akio.Buffer

variable {pool pool' : buffer_pool} {chain chain' : buffer_chain} {buffers : Store buffer}
  {f f' o ms l dropped rest : List Nat} {w i j size : Nat}

theorem pending_of_wellFormed (hp : PoolOf pool f (ms ++ [w] ++ o)) (hc : WellFormed pool.buffers chain ms w) :
    pending pool chain = content pool.buffers (ms ++ [w]) := by
  have hle := hp.length_le
  rw [List.length_append] at hle
  unfold pending
  rw [hc.linked.walk_of_le (by omega)]

theorem content_take_le (hij : i ≤ j) :
    (content buffers (l.take i)).length ≤ (content buffers (l.take j)).length := by
  have htake : l.take i = (l.take j).take i := by rw [List.take_take, Nat.min_eq_left hij]
  rw [htake]
  exact offered_le

theorem Drops.consumed (hd : Drops pool chain ms w o size pool' chain' dropped rest f') (hi : i < ms.length) :
    i < dropped.length ↔ (content pool.buffers (ms.take (i + 1))).length ≤ size := by
  have hwhole := hd.whole
  have hpart := hd.part
  obtain rfl := hd.split
  constructor
  · intro hlt
    have hle : (content pool.buffers ((dropped ++ rest).take (i + 1))).length ≤
        (content pool.buffers ((dropped ++ rest).take dropped.length)).length := content_take_le hlt
    rw [List.take_left] at hle
    exact Nat.le_trans hle hwhole
  · intro hle
    apply Nat.lt_of_not_le
    intro hge
    cases rest with
    | nil =>
      rw [List.append_nil] at hi
      omega
    | cons p rest =>
      have hsplit : dropped ++ p :: rest = dropped ++ [p] ++ rest := by simp
      have hfirst : (content pool.buffers (dropped ++ [p])).length ≤
          (content pool.buffers ((dropped ++ p :: rest).take (i + 1))).length := by
        have htake : dropped ++ [p] = (dropped ++ p :: rest).take (dropped.length + 1) := by
          rw [hsplit, List.take_left' (by simp)]
        rw [htake]
        exact content_take_le (by omega)
      have hlt := hpart p rest rfl
      omega

theorem Drops.first (hd : Drops pool chain ms w o size pool' chain' dropped rest f') :
    ∃ b n, chain'.rbuf = some b ∧ pool'.buffers.cell b = some n ∧
      (n.pos = n.last → rest = [] ∧ b = w ∧ n.pos = 0 ∧ n.last = 0) := by
  have hlinked := hd.wellFormed.linked
  cases rest with
  | nil =>
    obtain ⟨n, hn, -⟩ := hd.wellFormed.last
    refine ⟨w, n, hlinked.1, hn, ?_⟩
    intro hempty
    have hlast := hd.rewound rfl n hn hempty
    exact ⟨rfl, rfl, hempty.trans hlast, hlast⟩
  | cons p rest =>
    obtain ⟨n, hn, hfull⟩ := hd.wellFormed.full p List.mem_cons_self
    exact ⟨p, n, hlinked.1, hn, fun hempty => absurd hempty (Nat.ne_of_lt hfull.1)⟩

/-- `shrink_chain` removes the first `size` bytes of a chain, and its assertion holds. It puts back the buffers
`dropped`, each one once, which are those before the last one that have no bytes but these, and moves the
markers of the new first buffer. That one has no bytes only where the whole chain has none, and is rewound then. -/
theorem shrink_chain_prefix (hp : PoolOf pool f (ms ++ [w] ++ o)) (hc : WellFormed pool.buffers chain ms w)
    (hsize : size ≤ (pending pool chain).length) :
    ∃ pool' chain' dropped rest b n, shrink_chain pool chain size = .done (pool', chain', some b) ∧
      pending pool' chain' = (pending pool chain).drop size ∧
      ms = dropped ++ rest ∧
      (∀ i < ms.length, i < dropped.length ↔ (content pool.buffers (ms.take (i + 1))).length ≤ size) ∧
      (∃ pool₁ change, putAll pool dropped = .done pool₁ ∧
        (∀ m : buffer, (change m).next = m.next ∧ (change m).data = m.data) ∧
        pool' = { pool₁ with buffers := pool₁.buffers.adjust b change }) ∧
      chain'.wbuf = chain.wbuf ∧ chain'.rbuf = some b ∧
      pool'.buffers.cell b = some n ∧
      (n.pos = n.last → pending pool' chain' = [] ∧ b = w ∧ n.pos = 0 ∧ n.last = 0) ∧
      (∃ f', PoolOf pool' f' (rest ++ [w] ++ o)) ∧ WellFormed pool'.buffers chain' rest w := by
  have hle := hp.length_le
  simp only [List.length_append, List.length_singleton] at hle
  rw [pending_of_wellFormed hp hc] at hsize ⊢
  obtain ⟨pool', chain', dropped, rest, f', hrun, hd⟩ := shrinkLoop_drops hp hc hsize
    (show ms.length < pool.buffers.next + 1 by omega)
  obtain ⟨b, n, hb, hn, hempty⟩ := hd.first
  have hpending := pending_of_wellFormed hd.poolOf hd.wellFormed
  have hwbuf : chain'.wbuf = chain.wbuf := hd.wellFormed.wbuf.trans hc.wbuf.symm
  refine ⟨pool', chain', dropped, rest, b, n, ?_, hpending.trans hd.left, hd.split, fun i hi => hd.consumed hi, ?_,
    hwbuf, hb, hn, ?_, ⟨f', hd.poolOf⟩, hd.wellFormed⟩
  · rw [← hb]
    exact hrun
  · obtain ⟨pool₁, b', change, hput, hb', hrest⟩ := hd.put
    obtain rfl := Option.some.inj (hb.symm.trans hb')
    exact ⟨pool₁, change, hput, hrest⟩
  · intro heq
    obtain ⟨rfl, rfl, hpos, hlast⟩ := hempty heq
    refine ⟨?_, rfl, hpos, hlast⟩
    rw [hpending, List.nil_append, content_single hn, unread, hpos, hlast]
    exact Block.slice_self

/-- Nine of ten bytes go, with the buffers that hold them. -/
theorem shrink_chain_prefix_sample :
    ∃ pool' chain' dropped rest b, shrink_chain samplePool sampleChain 9 = .done (pool', chain', some b) ∧
      pending pool' chain' = [7] ∧ List.range 9 = dropped ++ rest := by
  obtain ⟨pool', chain', dropped, rest, b, n, hrun, hpending, hsplit, -⟩ :=
    shrink_chain_prefix samplePool_of sampleChain_of.wellFormed (show 9 ≤ _ by decide)
  exact ⟨pool', chain', dropped, rest, b, hrun, hpending, hsplit⟩

end Akio.Buffer
