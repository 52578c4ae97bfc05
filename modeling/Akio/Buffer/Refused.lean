import Akio.Buffer.Runs

/-!
# Receiving without memory

`buffer_chain_recv` does not look at what `buffer_pool_peek` returned before it reads the buffer.
-/

namespace Akio.Buffer

variable {pool pool' : buffer_pool} {chain : buffer_chain} {w : world} {c : conn} {o : List Nat}
  {bytes delivered : List byte} {input : Input} {t : arrival} {i wlen tsize : Nat} {p q : Ptr}

/-- The turns come to need more than `n` free buffers, with `room` bytes of room in the last buffer of the chain. -/
def starves : Nat → Nat → List Input → Bool
  | _, _, [] => false
  | _, 0, _ :: _ => true
  | room, n + 1, .eintr :: inputs => starves room (n + 1) inputs
  | room, n + 1, .bytes _ more :: inputs => decide (room + BUFFER_CAP ≤ more.length + 1) && starves 0 n inputs
  | _, _, _ => false

/-! ## The pool -/

theorem Holds.head_next_iff (hh : Holds pool chain o bytes) : pool.head_next = none ↔ pool.size = 0 := by
  obtain ⟨f, ms, w, hp, -⟩ := hh
  rw [hp.queue.chain.head_eq, hp.size, List.head?_eq_none_iff]
  simp

theorem fillBuffer_size (hdone : fillBuffer pool p bytes = .done pool') : pool'.size = pool.size := by
  obtain ⟨buffers, -, hpure⟩ := Outcome.bind_eq_done.mp hdone
  cases hpure
  rfl

theorem readv_size (hdone : readv pool p q wlen bytes = .done pool') : pool'.size = pool.size := by
  obtain ⟨pool₁, hfirst, hsecond⟩ := Outcome.bind_eq_done.mp hdone
  exact (fillBuffer_size hsecond).trans (fillBuffer_size hfirst)

theorem join_size (hdone : join pool p q wlen tsize = .done pool') : pool'.size = pool.size - 1 := by
  obtain ⟨buffers, -, hdone⟩ := Outcome.bind_eq_done.mp hdone
  obtain ⟨pool₁, hdetach, hdone⟩ := Outcome.bind_eq_done.mp hdone
  obtain ⟨buffers₁, -, hdone⟩ := Outcome.bind_eq_done.mp hdone
  obtain ⟨buffers₂, -, hpure⟩ := Outcome.bind_eq_done.mp hdone
  cases hpure
  obtain ⟨n, -, hdetach⟩ := Outcome.bind_eq_done.mp hdetach
  obtain ⟨buffers₃, -, hpure⟩ := Outcome.bind_eq_done.mp hdetach
  cases hpure
  rfl

/-! ## One turn -/

theorem peek_free (hfree : pool.head_next ≠ none) (malloc : Bool) :
    buffer_pool_peek malloc pool = (pool, pool.head_next) := if_pos hfree

theorem recvTurn_free (hfree : pool.head_next ≠ none) :
    recvTurn false pool chain delivered input = recvTurn true pool chain delivered input := by
  unfold recvTurn
  rw [peek_free hfree, peek_free hfree]

theorem recvTurn_refused (hh : Holds pool chain o bytes) (hnone : pool.head_next = none) :
    recvTurn false pool chain delivered input = .fault := by
  obtain ⟨f, ms, w, -, hc, -⟩ := hh
  obtain ⟨n, hn, -⟩ := hc.filling
  have hpeek : buffer_pool_peek false pool = (pool, none) := by
    unfold buffer_pool_peek
    rw [if_neg (not_not.mpr hnone), if_pos (by rfl)]
  unfold recvTurn
  rw [hc.wbuf, Store.read_of_cell hn, Outcome.done_bind, hpeek]
  rfl

theorem recvTurn_eintr (hfree : pool.head_next ≠ none)
    (hdone : recvTurn true pool chain delivered .eintr = .done t) : t.pool.size = pool.size := by
  obtain ⟨n, -, hdone⟩ := Outcome.bind_eq_done.mp hdone
  rw [peek_free hfree] at hdone
  obtain ⟨m, -, hpure⟩ := Outcome.bind_eq_done.mp hdone
  cases hpure
  rfl

theorem recvTurn_bytes {first : byte} {more : List byte} (hfree : pool.head_next ≠ none)
    (hdone : recvTurn true pool chain delivered (.bytes first more) = .done t) (hnext : t.ret = none) :
    t.pool.size = pool.size - 1 := by
  obtain ⟨n, -, hdone⟩ := Outcome.bind_eq_done.mp hdone
  rw [peek_free hfree] at hdone
  obtain ⟨m, -, hdone⟩ := Outcome.bind_eq_done.mp hdone
  dsimp only at hdone
  split_ifs at hdone
  · cases hdone
    cases hnext
  · obtain ⟨pool₁, hread, hdone⟩ := Outcome.bind_eq_done.mp hdone
    obtain ⟨buffers, -, hpure⟩ := Outcome.bind_eq_done.mp hdone
    cases hpure
    cases hnext
  all_goals
    obtain ⟨pool₁, hread, hdone⟩ := Outcome.bind_eq_done.mp hdone
    obtain ⟨pool₂, hjoin, hpure⟩ := Outcome.bind_eq_done.mp hdone
    cases hpure
    exact (join_size hjoin).trans (congrArg (· - 1) (readv_size hread))

/-! ## The loop -/

theorem recvLoop_refused (inputs : List Input) {n : Nat} (hh : Holds pool chain o bytes) (hsize : pool.size = n) :
    recvLoop false pool chain delivered inputs =
      if starves (room pool chain) n inputs then .fault else recvLoop true pool chain delivered inputs := by
  induction inputs generalizing pool chain delivered bytes n with
  | nil => cases n <;> rfl
  | cons input inputs ih =>
    cases n with
    | zero =>
      rw [recvLoop_cons, recvTurn_refused hh (hh.head_next_iff.mpr hsize)]
      rfl
    | succ n =>
      have hfree : pool.head_next ≠ none := by
        rw [Ne, hh.head_next_iff]
        omega
      obtain ⟨t, hturn, ht⟩ := recvTurn_spec hh delivered input
      obtain ⟨new, hnew, hholds, -⟩ := ht.data
      have hends := ht.ret
      rw [recvLoop_cons, recvLoop_cons, recvTurn_free hfree, hturn, Outcome.done_bind, Outcome.done_bind]
      unfold starves
      cases input with
      | eof => simp [hends.1]
      | eagain => simp [show t.ret = some 1 from hends]
      | error => simp [show t.ret = some (-1) from hends]
      | eintr =>
        obtain ⟨hnone, -, hroom⟩ := hends
        rw [hnone, ← hroom]
        exact ih hholds ((recvTurn_eintr hfree hturn).trans hsize)
      | bytes first more =>
        by_cases hfull : room pool chain + BUFFER_CAP ≤ more.length + 1
        · obtain ⟨hnone, -, hroom⟩ := (recvRet_full hfull).mp hends
          have hsize' : t.pool.size = n := by
            rw [recvTurn_bytes hfree hturn hnone, hsize]
            omega
          rw [hnone]
          simpa [hfull, hroom] using ih hholds hsize'
        · simp [hfull, (recvRet_short hfull).mp hends]

/-! ## Runs -/

/-- The call on the connection `i`, where `malloc` is what an allocation answers. -/
def recvAttempt (malloc : Bool) (w : world) (i : Nat) (inputs : List Input) : Outcome (world × Int) := do
  let c ← Outcome.ofOption w.conns[i]?
  let (pool, chain, ret, bytes) ← buffer_chain_recv malloc w.pool c.chain inputs
  let c := { c with chain, delivered := c.delivered ++ bytes }
  return ({ pool, conns := w.conns.set i c }, ret)

theorem recvAttempt_refused {h f : List Nat} {cs : List (conn × List Nat)} (hi : Inv w h f cs)
    (hc : w.conns[i]? = some c) (inputs : List Input) :
    recvAttempt false w i inputs =
      if starves (room w.pool c.chain) w.pool.size.toNat inputs then .fault else recvOn w i inputs := by
  obtain ⟨rest, hh, -⟩ := hi.holds hc
  have hsize : w.pool.size = w.pool.size.toNat := by
    rw [hi.pool.size]
    rfl
  have hcounts : Holds w.pool { c.chain with recv := 0 } (others cs i ++ h) rest := hh.counts
  have hcall : buffer_chain_recv false w.pool c.chain inputs =
      if starves (room w.pool c.chain) w.pool.size.toNat inputs then .fault
      else buffer_chain_recv true w.pool c.chain inputs :=
    recvLoop_refused inputs hcounts hsize
  unfold recvAttempt recvOn
  rw [hc, Outcome.ofOption_some, Outcome.done_bind, Outcome.done_bind, hcall]
  split_ifs <;> rfl

theorem inv_of_run {maxsize : Int} {calls : List Call} (hnew : buffer_pool_create true maxsize = some pool)
    (hrun : Run Step ⟨pool, []⟩ calls w) : ∃ f cs, Inv w [] f cs := by
  refine hrun.invariant (P := fun w => ∃ f cs, Inv w [] f cs) ?_ ⟨_, _, new_inv hnew⟩
  rintro w call w' ⟨f, cs, hi⟩ hstep
  exact hstep.inv hi

/-- After any calls, without memory `buffer_chain_recv` reads through NULL where the peer fills all the free buffers
of the pool, and goes as it would with memory otherwise. -/
theorem recv_refused_of_run {maxsize : Int} {calls : List Call} (hnew : buffer_pool_create true maxsize = some pool)
    (hrun : Run Step ⟨pool, []⟩ calls w) (hc : w.conns[i]? = some c) (inputs : List Input) :
    (recvAttempt false w i inputs = .fault ↔ starves (room w.pool c.chain) w.pool.size.toNat inputs = true) ∧
    (starves (room w.pool c.chain) w.pool.size.toNat inputs = false →
      recvAttempt false w i inputs = recvOn w i inputs) := by
  obtain ⟨f, cs, hi⟩ := inv_of_run hnew hrun
  have hcall := recvAttempt_refused hi hc inputs
  cases hstarves : starves (room w.pool c.chain) w.pool.size.toNat inputs with
  | true =>
    rw [hstarves, if_pos rfl] at hcall
    exact ⟨iff_of_true hcall rfl, fun h => by cases h⟩
  | false =>
    rw [hstarves, if_neg Bool.false_ne_true] at hcall
    rw [hcall]
    exact ⟨iff_of_false (recvOn_spec hi hc inputs).1 Bool.false_ne_true, fun _ => rfl⟩

/-- A connection started, and its first call left a free buffer in the pool. -/
def polledCalls : List Call := [.start, .recv 0 [.eagain]]

def polledWorld : world := (polledCalls.foldlM step? ⟨newPool, []⟩).get (by decide)

def polledConn : conn := polledWorld.conns[0]?.get (by decide)

/-- What fills both buffers makes the next turn fault, and a byte does not. -/
theorem recv_refused_sample : polledWorld.pool.size = 1 ∧
    recvAttempt false polledWorld 0 [.bytes 0 (List.replicate (2 * BUFFER_CAP - 1) 0), .eagain] = .fault ∧
    recvAttempt false polledWorld 0 [.bytes 0 [], .eagain] = recvOn polledWorld 0 [.bytes 0 [], .eagain] := by
  have hnew : buffer_pool_create true 10 = some newPool := rfl
  have hrun : Run Step ⟨newPool, []⟩ polledCalls polledWorld :=
    Run.of_foldlM (fun _ _ _ => step_of_step?) (Option.some_get _).symm
  have hconn : polledWorld.conns[0]? = some polledConn := rfl
  have hsize : polledWorld.pool.size = 1 := by decide
  have hroom : room polledWorld.pool polledConn.chain = BUFFER_CAP := by decide
  obtain ⟨hfault, -⟩ := recv_refused_of_run hnew hrun hconn
    [.bytes 0 (List.replicate (2 * BUFFER_CAP - 1) 0), .eagain]
  obtain ⟨-, hsame⟩ := recv_refused_of_run hnew hrun hconn [.bytes 0 [], .eagain]
  rw [hsize, hroom] at hfault hsame
  have hfills : BUFFER_CAP + BUFFER_CAP ≤ (List.replicate (2 * BUFFER_CAP - 1) (0 : byte)).length + 1 := by
    rw [List.length_replicate]
    decide
  exact ⟨hsize, hfault.mpr (Bool.and_eq_true_iff.mpr ⟨decide_eq_true hfills, rfl⟩), hsame (by decide)⟩

end Akio.Buffer
