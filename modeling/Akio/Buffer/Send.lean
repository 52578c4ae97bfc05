import Akio.Buffer.Shrink
import Mathlib.Data.List.Perm.Subperm

/-!
# `buffer_chain_send`

What `writev` is offered is the start of what the chain holds, so what it takes is.
-/

namespace Akio.Buffer

variable {pool : buffer_pool} {chain : buffer_chain} {buffers : Store buffer} {f o ms l : List Nat} {w : Nat}
  {a : Ptr} {i : Nat} {bytes : List byte}

/-- The chain holds `bytes` in its own buffers. The buffers `o` are out as well. -/
def Holds (pool : buffer_pool) (chain : buffer_chain) (o : List Nat) (bytes : List byte) : Prop :=
  ∃ f ms w, PoolOf pool f (ms ++ [w] ++ o) ∧ ChainOf pool.buffers chain ms w ∧
    content pool.buffers (ms ++ [w]) = bytes

theorem Holds.counts {sent recv : Nat} (hh : Holds pool chain o bytes) :
    Holds pool { chain with sent, recv } o bytes := by
  obtain ⟨f, ms, w, hp, hc, hcontent⟩ := hh
  exact ⟨f, ms, w, hp, ⟨hc.linked, hc.wbuf, hc.full, hc.filling⟩, hcontent⟩

theorem PoolOf.length_le (hp : PoolOf pool f o) : o.length ≤ pool.buffers.next := by
  have hsub : o ⊆ List.range pool.buffers.next :=
    fun p ho => List.mem_range.mpr (hp.live_out ho).lt_next
  have hle := (List.Nodup.subperm (List.nodup_append.mp hp.nodup).2.1 hsub).length_le
  rwa [List.length_range] at hle

theorem gather_spec (hc : Chain (nextOf pool.buffers) a l none) (hlive : ∀ p ∈ l, pool.buffers.Live p) :
    gather pool i a = .done ((l.take i).map (pool.buffers.field unread [])) := by
  induction i generalizing a l with
  | zero => rfl
  | succ i ih =>
    cases l with
    | nil =>
      obtain rfl := hc
      rfl
    | cons p l =>
      obtain ⟨rfl, hl⟩ := hc
      obtain ⟨n, hn⟩ := Store.live_iff.mp (hlive p List.mem_cons_self)
      rw [next_of_cell hn] at hl
      unfold gather
      rw [Store.read_of_cell hn, Outcome.done_bind, ih hl fun q hq => hlive q (List.mem_cons_of_mem p hq),
        List.take_succ_cons, List.map_cons, Store.field_of_cell hn]
      rfl

theorem take_offered {k : Nat} (hk : k ≤ (content buffers (l.take i)).length) :
    (content buffers (l.take i)).take k = (content buffers l).take k := by
  have hsplit : content buffers l = content buffers (l.take i) ++ content buffers (l.drop i) := by
    rw [← content_append, List.take_append_drop]
  rw [hsplit, List.take_append_of_le_length hk]

theorem offered_le : (content buffers (l.take i)).length ≤ (content buffers l).length := by
  have hsplit : content buffers l = content buffers (l.take i) ++ content buffers (l.drop i) := by
    rw [← content_append, List.take_append_drop]
  rw [hsplit, List.length_append]
  omega

theorem shrink_chain_spec {size : Nat} (hp : PoolOf pool f (ms ++ [w] ++ o)) (hc : ChainOf pool.buffers chain ms w)
    (hsize : size ≤ (content pool.buffers (ms ++ [w])).length) :
    ∃ pool' chain' ms' f', shrink_chain pool chain size = .done (pool', chain', chain'.rbuf) ∧
      Shrunk pool chain ms w o size pool' chain' ms' f' := by
  apply shrinkLoop_spec hp hc hsize
  have hle := hp.length_le
  simp only [List.length_append, List.length_singleton] at hle
  omega

theorem ChainOf.first_empty_iff {b : Nat} {n : buffer} (hc : ChainOf buffers chain ms w) (hb : chain.rbuf = some b)
    (hn : buffers.cell b = some n) : n.pos = n.last ↔ content buffers (ms ++ [w]) = [] := by
  have hfirst : chain.rbuf = (ms ++ [w]).head? := hc.linked.head_eq
  cases ms with
  | nil =>
    obtain rfl : w = b := Option.some.inj (hfirst.symm.trans hb)
    obtain ⟨n', hn', hfilling⟩ := hc.filling
    obtain rfl := Option.some.inj (hn.symm.trans hn')
    have hpos := hfilling.pos
    rw [List.nil_append, content_single hn, ← List.length_eq_zero_iff, length_unread, buffer_rsize]
    omega
  | cons p ms =>
    obtain rfl : p = b := Option.some.inj (hfirst.symm.trans hb)
    obtain ⟨n', hn', hfull⟩ := hc.full p List.mem_cons_self
    obtain rfl := Option.some.inj (hn.symm.trans hn')
    have hpos := hfull.1
    rw [List.cons_append, content_cons hn, List.append_eq_nil_iff, ← List.length_eq_zero_iff, length_unread,
      buffer_rsize]
    omega

theorem ChainOf.offered_pos (hc : ChainOf buffers chain ms w) (hi : 0 < i) (hne : content buffers (ms ++ [w]) ≠ []) :
    0 < (content buffers ((ms ++ [w]).take i)).length := by
  obtain ⟨k, rfl⟩ : ∃ k, i = k + 1 := ⟨i - 1, by omega⟩
  apply List.length_pos_of_ne_nil
  cases ms with
  | nil =>
    rw [List.nil_append, List.take_of_length_le (by simp)]
    exact hne
  | cons p ms =>
    obtain ⟨n, hn, hfull⟩ := hc.full p List.mem_cons_self
    have hpos := hfull.1
    rw [List.cons_append, List.take_succ_cons, content_cons hn, ← List.length_pos_iff, List.length_append,
      length_unread, buffer_rsize]
    omega

/-! ## One turn -/

/-- What `writev` returned: a number of bytes, or -1 and `errno`. -/
inductive Returned where
  | bytes (rv : Nat)
  | eagain
  | eintr
  | error

/-- A call of `writev`, with the number of bytes it was offered. -/
structure Writev where
  total : Nat
  returned : Returned

/-- `writev` had no room for what it was offered. -/
def Writev.Short (call : Writev) : Prop := call.returned = .eagain ∨ ∃ rv, call.returned = .bytes rv ∧ rv < call.total

def Writev.Whole (call : Writev) : Prop := call.returned = .bytes call.total

/-- What a turn of the loop leaves. The loop goes on where `ret` is `none`. -/
structure turn where
  call : Writev
  ret : Option Int
  pool : buffer_pool
  chain : buffer_chain
  accepted : List byte

/-- The body of the loop of `buffer_chain_send`. -/
def sendTurn (pool : buffer_pool) (chain : buffer_chain) (accepted : List byte) (output : Output) : Outcome turn := do
  let vec ← gather pool SM_MAX_IOV chain.rbuf
  let total := (vec.map List.length).sum
  match output with
  | .zero => return ⟨⟨total, .bytes 0⟩, some 0, pool, chain, accepted⟩
  | .eagain => return ⟨⟨total, .eagain⟩, some 1, pool, chain, accepted⟩
  | .error => return ⟨⟨total, .error⟩, some (-1), pool, chain, accepted⟩
  | .eintr => return ⟨⟨total, .eintr⟩, none, pool, chain, accepted⟩
  | .takes least =>
    let rv := min (least + 1) total
    if rv = 0 then return ⟨⟨total, .bytes 0⟩, some 0, pool, chain, accepted⟩
    let accepted := accepted ++ vec.flatten.take rv
    let (pool, chain, buf) ← shrink_chain pool { chain with sent := chain.sent + rv } rv
    let n ← pool.buffers.read buf
    return ⟨⟨total, .bytes rv⟩, if rv ≠ total ∨ n.pos = n.last then some 1 else none, pool, chain, accepted⟩

theorem sendLoop_cons {output : Output} {outputs : List Output} {accepted : List byte} :
    sendLoop pool chain accepted (output :: outputs) =
      sendTurn pool chain accepted output >>= fun t =>
        match t.ret with
        | some ret => .done (t.pool, t.chain, ret, t.accepted)
        | none => sendLoop t.pool t.chain t.accepted outputs := by
  unfold sendTurn
  rw [sendLoop]
  cases gather pool SM_MAX_IOV chain.rbuf with
  | fault => rfl
  | running => rfl
  | done vec =>
    cases output with
    | takes least =>
      simp only [Outcome.done_bind]
      split_ifs with hzero
      · rfl
      · cases shrink_chain pool _ _ with
        | fault => rfl
        | running => rfl
        | done shrunk =>
          simp only [Outcome.done_bind]
          cases shrunk.1.buffers.read shrunk.2.2 with
          | fault => rfl
          | running => rfl
          | done n =>
            simp only [Outcome.done_bind, Outcome.pure_eq]
            split_ifs <;> rfl
    | _ => rfl

/-- A turn on a chain that holds `bytes` leaves `rest` in it. -/
structure Turned (pool : buffer_pool) (chain : buffer_chain) (o : List Nat) (bytes accepted : List byte) (t : turn)
    (rest : List byte) : Prop where
  holds : Holds t.pool t.chain o rest
  stream : t.accepted ++ rest = accepted ++ bytes
  sent : chain.sent = accepted.length → t.chain.sent = t.accepted.length
  same : Same pool.buffers t.pool.buffers o
  wbuf : t.chain.wbuf = chain.wbuf
  ret : ∀ ret, t.ret = some ret → ret = 1 ∨ ret = 0 ∨ ret = -1
  short : t.ret = some 1 → rest ≠ [] → t.call.Short
  whole : bytes ≠ [] → t.call.Whole → rest.length < bytes.length ∧ t.ret = if rest = [] then some 1 else none

theorem Turned.kept {accepted : List byte} {call : Writev} {ret : Option Int} (hh : Holds pool chain o bytes)
    (hret : ∀ r, ret = some r → r = 1 ∨ r = 0 ∨ r = -1) (hshort : ret = some 1 → call.Short)
    (hwhole : bytes ≠ [] → ¬ call.Whole) :
    Turned pool chain o bytes accepted ⟨call, ret, pool, chain, accepted⟩ bytes where
  holds := hh
  stream := rfl
  sent := id
  same := Same.refl
  wbuf := rfl
  ret := hret
  short hone _ := hshort hone
  whole hne hall := absurd hall (hwhole hne)

theorem Turned.of_shrunk {pool' : buffer_pool} {chain' : buffer_chain} {ms' f' : List Nat} {accepted : List byte}
    {b rv total : Nat} {n : buffer} (hc : ChainOf pool.buffers chain ms w)
    (hs : Shrunk pool { chain with sent := chain.sent + rv } ms w o rv pool' chain' ms' f')
    (hb : chain'.rbuf = some b) (hn : pool'.buffers.cell b = some n) (hpos : 0 < rv) (hle : rv ≤ total)
    (hoffer : total ≤ (content pool.buffers (ms ++ [w])).length) :
    Turned pool chain o (content pool.buffers (ms ++ [w])) accepted
      ⟨⟨total, .bytes rv⟩, if rv ≠ total ∨ n.pos = n.last then some 1 else none, pool', chain',
        accepted ++ (content pool.buffers (ms ++ [w])).take rv⟩
      ((content pool.buffers (ms ++ [w])).drop rv) := by
  have hempty := hs.chainOf.first_empty_iff hb hn
  have hlen : rv ≤ (content pool.buffers (ms ++ [w])).length := Nat.le_trans hle hoffer
  refine ⟨⟨f', ms', w, hs.poolOf, hs.chainOf, hs.content⟩, ?_, ?_, hs.same, hs.chainOf.wbuf.trans hc.wbuf.symm,
    ?_, ?_, ?_⟩
  · rw [List.append_assoc, List.take_append_drop]
  · intro hsent
    show chain'.sent = _
    rw [hs.sent, List.length_append, List.length_take_of_le hlen]
    exact congrArg (· + rv) hsent
  · intro ret hret
    left
    split_ifs at hret
    exact (Option.some.inj hret).symm
  · -- The loop ended, and the first buffer has bytes, so `rv` is not `total`.
    intro hone hrest
    rw [← hs.content] at hrest
    have hshort : rv ≠ total := by
      intro heq
      simp only [heq, ne_eq, not_true_eq_false, false_or, hempty, hrest, if_false] at hone
      cases hone
    exact Or.inr ⟨rv, rfl, Nat.lt_of_le_of_ne hle hshort⟩
  · intro _ hall
    obtain rfl : rv = total := Returned.bytes.inj hall
    refine ⟨by rw [List.length_drop]; omega, ?_⟩
    rw [← hs.content]
    simp only [ne_eq, not_true_eq_false, false_or, hempty]

theorem sendTurn_spec (hh : Holds pool chain o bytes) (accepted : List byte) (output : Output) :
    ∃ t rest, sendTurn pool chain accepted output = .done t ∧ Turned pool chain o bytes accepted t rest := by
  obtain ⟨f, ms, w, hp, hc, rfl⟩ := id hh
  have hlive : ∀ p ∈ ms ++ [w], pool.buffers.Live p := fun p hpm => hp.live_out (List.mem_append_left o hpm)
  -- The vectors hold the first bytes of the chain, so their lengths sum up to no more.
  have htotal : (List.map List.length (((ms ++ [w]).take SM_MAX_IOV).map (pool.buffers.field unread []))).sum =
      (content pool.buffers ((ms ++ [w]).take SM_MAX_IOV)).length := by
    unfold content
    rw [List.length_flatMap, List.map_map]
    rfl
  have hoffer : (content pool.buffers ((ms ++ [w]).take SM_MAX_IOV)).length ≤
      (content pool.buffers (ms ++ [w])).length := offered_le
  have hpos := hc.offered_pos (show 0 < SM_MAX_IOV by decide)
  unfold sendTurn
  rw [gather_spec hc.linked hlive, Outcome.done_bind]
  dsimp only
  rw [htotal]
  generalize htot : (content pool.buffers ((ms ++ [w]).take SM_MAX_IOV)).length = total at hoffer hpos
  have hnone : content pool.buffers (ms ++ [w]) ≠ [] → ¬ (Writev.mk total (.bytes 0)).Whole := by
    intro hne hall
    exact absurd (Returned.bytes.inj hall) (Nat.ne_of_lt (hpos hne))
  cases output with
  | zero => exact ⟨_, _, rfl, .kept hh (by simp) (by simp) hnone⟩
  | eagain => exact ⟨_, _, rfl, .kept hh (by simp) (fun _ => Or.inl rfl) (by simp [Writev.Whole])⟩
  | error => exact ⟨_, _, rfl, .kept hh (by simp) (by simp) (by simp [Writev.Whole])⟩
  | eintr => exact ⟨_, _, rfl, .kept hh (by simp) (by simp) (by simp [Writev.Whole])⟩
  | takes least =>
    dsimp only
    generalize hrv : min (least + 1) total = rv
    by_cases hzero : rv = 0
    · rw [if_pos hzero]
      exact ⟨_, _, rfl, .kept hh (by simp) (by simp) hnone⟩
    · have htake : (List.map (pool.buffers.field unread []) ((ms ++ [w]).take SM_MAX_IOV)).flatten.take rv =
          (content pool.buffers (ms ++ [w])).take rv := take_offered (by omega)
      have hc₀ : ChainOf pool.buffers { chain with sent := chain.sent + rv } ms w :=
        ⟨hc.linked, hc.wbuf, hc.full, hc.filling⟩
      obtain ⟨pool', chain', ms', f', hshrink, hs⟩ := shrink_chain_spec hp hc₀ (show rv ≤ _ by omega)
      obtain ⟨b, n, hb, hn⟩ := hs.chainOf.first
      rw [if_neg hzero, htake, hshrink, Outcome.done_bind]
      dsimp only
      rw [hb, Store.read_of_cell hn, Outcome.done_bind]
      exact ⟨_, _, rfl, .of_shrunk hc hs hb hn (show 0 < rv by omega) (show rv ≤ total by omega) hoffer⟩

/-! ## The call -/

/-- The loop ends well, or `outputs` does not say how it goes on. `stream` is what was sent so far and
what the chain holds. -/
def SendEnds (buffers : Store buffer) (o : List Nat) (stream : List byte) :
    Outcome (buffer_pool × buffer_chain × Int × List byte) → Prop
  | .done (pool', chain', ret, accepted) => (∃ rest, Holds pool' chain' o rest ∧ accepted ++ rest = stream) ∧
      chain'.sent = accepted.length ∧ Same buffers pool'.buffers o ∧ (ret = 1 ∨ ret = 0 ∨ ret = -1)
  | .fault => False
  | .running => True

theorem sendLoop_spec (outputs : List Output) {accepted : List byte} (hh : Holds pool chain o bytes)
    (hsent : chain.sent = accepted.length) (hsame : Same buffers pool.buffers o) :
    SendEnds buffers o (accepted ++ bytes) (sendLoop pool chain accepted outputs) := by
  induction outputs generalizing pool chain accepted bytes with
  | nil => trivial
  | cons output outputs ih =>
    obtain ⟨t, rest, hturn, ht⟩ := sendTurn_spec hh accepted output
    rw [sendLoop_cons, hturn, Outcome.done_bind, ← ht.stream]
    cases hret : t.ret with
    | some ret => exact ⟨⟨rest, ht.holds, rfl⟩, ht.sent hsent, hsame.trans ht.same, ht.ret ret hret⟩
    | none => exact ih ht.holds (ht.sent hsent) (hsame.trans ht.same)

theorem buffer_chain_send_ends (hh : Holds pool chain o bytes) (outputs : List Output) :
    (buffer_chain_send pool chain outputs).Ends fun r => SendEnds pool.buffers o bytes (.done r) := by
  have hends : SendEnds pool.buffers o bytes (buffer_chain_send pool chain outputs) :=
    sendLoop_spec outputs hh.counts rfl Same.refl
  cases hcall : buffer_chain_send pool chain outputs with
  | done r =>
    rw [hcall] at hends
    exact hends
  | fault =>
    rw [hcall] at hends
    exact hends
  | running => trivial

end Akio.Buffer
