import Akio.Demo.Model

/-!
# Every received byte is accounted for

`total` is what a chain holds. A callback that finds the end of the file after it took bytes in leaves them out
of `total`.
-/

namespace Akio.Demo

open Buffer

variable {g g' : statics} {conn conn' : connection} {o f : List Nat} {rest rest' bytes : List byte}
  {log : List Entry} {total : BitVec 64} {s s' : server} {i : Nat} {c : client} {cs : List (Buffer.conn × List Nat)}

/-- A call in the log failed. -/
def Entry.Failed : Entry → Prop
  | .recv rv _ => rv < 0
  | .send rv _ => rv < 0
  | _ => False

instance : DecidablePred Entry.Failed
  | .recv rv _ => inferInstanceAs (Decidable (rv < 0))
  | .send rv _ => inferInstanceAs (Decidable (rv < 0))
  | .charge .. | .create_event _ | .delete_event _ | .shutdown _ | .close => inferInstanceAs (Decidable False)

/-- The callback with this log left `rest` in the chain. An open connection counts it, no more is taken off
`total` than it has, and without an error nothing is left behind by a close or by the end of writing. -/
structure Balanced (conn : connection) (log : List Entry) (rest : List byte) : Prop where
  total : .close ∉ log → conn.total.toNat = rest.length
  charges : ∀ total sent, .charge total sent ∈ log → sent ≤ total.toNat
  flushed : .close ∈ log ∨ .shutdown .SHUT_WR ∈ log → (∀ e ∈ log, ¬ e.Failed) → rest = []

/-- The call of `buffer_chain_recv` in this callback does not find the end of the file after bytes. -/
def Callback.Clean (g : statics) (conn : connection) : Callback → Prop
  | .read inputs _ => endsAfterFull (room g.pool conn.chain) false inputs = false
  | .write _ => True

instance (g : statics) (conn : connection) : (callback : Callback) → Decidable (callback.Clean g conn)
  | .read inputs _ => inferInstanceAs (Decidable (endsAfterFull (room g.pool conn.chain) false inputs = false))
  | .write _ => inferInstanceAs (Decidable True)

/-- What a callback did to a chain that held `rest`. -/
structure Echoed (g g' : statics) (conn' : connection) (o : List Nat) (rest : List byte) (log : List Entry)
    (rest' : List byte) : Prop where
  holds : Holds g'.pool conn'.chain o rest'
  stream : rest ++ log.flatMap Entry.received = log.flatMap Entry.sent ++ rest'
  same : Same g.pool.buffers g'.pool.buffers o

/-! ## `total` -/

theorem charge_total (htotal : total.toNat = rest.length) (hrest : bytes ++ rest' = rest) :
    bytes.length ≤ total.toNat ∧ (total - BitVec.ofNat 64 bytes.length).toNat = rest'.length := by
  have hlt := total.isLt
  rw [← hrest, List.length_append] at htotal
  have hsent : (BitVec.ofNat 64 bytes.length).toNat = bytes.length := by
    rw [BitVec.toNat_ofNat]
    exact Nat.mod_eq_of_lt (by omega)
  refine ⟨by omega, ?_⟩
  rw [BitVec.toNat_sub_of_le (by rw [BitVec.le_def]; omega), hsent]
  omega

theorem credit_total (htotal : total.toNat = rest.length) (hfits : rest.length + bytes.length < 2 ^ 64) :
    (total + BitVec.ofNat 64 bytes.length).toNat = (rest ++ bytes).length := by
  rw [BitVec.toNat_add, BitVec.toNat_ofNat, htotal, List.length_append]
  omega

theorem total_zero_iff (htotal : total.toNat = rest.length) : total = 0#64 ↔ rest = [] := by
  rw [← List.length_eq_zero_iff, ← htotal]
  exact ⟨fun h => by simp [h], fun h => BitVec.eq_of_toNat_eq h⟩

/-! ## The callbacks -/

theorem client_writecb_spec (hh : Holds g.pool conn.chain o rest) (outputs : List Output) :
    (client_writecb g conn outputs).Ends fun r =>
      ∃ rest', Echoed g r.1 r.2.1 o rest r.2.2 rest' ∧
        (conn.total.toNat = rest.length → Balanced r.2.1 r.2.2 rest') := by
  unfold client_writecb
  apply (buffer_chain_send_ends hh outputs).bind
  rintro ⟨pool', chain', rv, bytes⟩ ⟨⟨rest', hh', hstream⟩, hsent, hsame, hrv⟩
  have hafter (htotal : conn.total.toNat = rest.length) := charge_total htotal hstream
  rw [← hsent] at hafter
  dsimp only
  split_ifs with hfail hzero heof
  · refine ⟨rest', ⟨hh', by simp [hstream], hsame⟩, fun _ => ⟨by simp, by simp, ?_⟩⟩
    intro _ hok
    exact absurd hfail (hok _ List.mem_cons_self)
  · refine ⟨rest', ⟨hh', by simp [hstream], hsame⟩, fun htotal => ?_⟩
    obtain ⟨hle, hleft⟩ := hafter htotal
    exact ⟨fun _ => hleft, by simpa using hle, fun _ _ => (total_zero_iff hleft).mp hzero⟩
  all_goals
    refine ⟨rest', ⟨hh', by simp [hstream], hsame⟩, fun htotal => ?_⟩
    obtain ⟨hle, hleft⟩ := hafter htotal
    exact ⟨fun _ => hleft, by simpa using hle, by simp⟩

theorem client_readcb_spec (hh : Holds g.pool conn.chain o rest) (inputs : List Input) (outputs : List Output) :
    (client_readcb g conn inputs outputs).Ends fun r =>
      ∃ rest', Echoed g r.1 r.2.1 o rest r.2.2 rest' ∧
        (conn.total.toNat = rest.length → rest.length + (r.2.2.flatMap Entry.received).length < 2 ^ 64 →
          (Balanced r.2.1 r.2.2 rest' ↔ (Callback.read inputs outputs).Clean g conn)) := by
  unfold client_readcb
  apply (buffer_chain_recv_ends hh inputs).bind
  rintro ⟨pool₁, chain₁, rv, bytes⟩ ⟨⟨hh₁, hrecv, hsame₁, hrv⟩, hended⟩
  have hclean : (Callback.read inputs outputs).Clean g conn ↔ ¬ (rv = 0 ∧ bytes ≠ []) := by
    rw [hended]
    exact (Bool.not_eq_true _).symm.to_iff
  dsimp only
  by_cases hclose : rv < 0 ∨ rv = 0 ∧ conn.total = 0#64
  · rw [if_pos hclose]
    refine ⟨rest ++ bytes, ⟨hh₁, by simp, hsame₁⟩, fun htotal _ => ?_⟩
    rcases hclose with hfail | ⟨hzero, hnone⟩
    · refine iff_of_true ⟨by simp, by simp, ?_⟩ (hclean.mpr (by omega))
      intro _ hok
      exact absurd hfail (hok _ List.mem_cons_self)
    · rw [(total_zero_iff htotal).mp hnone, List.nil_append, hclean]
      constructor
      · rintro hb ⟨-, hne⟩
        apply hne
        exact hb.flushed (Or.inl (by simp)) (by simp [Entry.Failed, hzero])
      · exact fun hnot => ⟨by simp, by simp, fun _ _ => not_not.mp fun hne => hnot ⟨hzero, hne⟩⟩
  rw [if_neg hclose]
  by_cases hzero : rv = 0
  · rw [if_pos hzero]
    refine ⟨rest ++ bytes, ⟨hh₁, by simp, hsame₁⟩, fun htotal _ => ?_⟩
    rw [hclean]
    constructor
    · rintro hb ⟨-, hne⟩
      have hcount : conn.total.toNat = (rest ++ bytes).length := hb.total (by simp)
      rw [List.length_append] at hcount
      exact hne (List.length_eq_zero_iff.mp (by omega))
    · intro hnot
      have hnil : bytes = [] := not_not.mp fun hne => hnot ⟨hzero, hne⟩
      exact ⟨fun _ => by simpa [hnil] using htotal, by simp, by simp⟩
  rw [if_neg hzero]
  -- From here on the callback has taken `bytes` in and counts them.
  have hok := hclean.mpr fun h => hzero h.1
  have hcredit (htotal : conn.total.toNat = rest.length) (hfits : rest.length + bytes.length < 2 ^ 64) :
      (conn.total + BitVec.ofNat 64 chain₁.recv).toNat = (rest ++ bytes).length := by
    rw [hrecv]
    exact credit_total htotal hfits
  by_cases hwriting : conn.writing = true
  · rw [if_pos hwriting]
    refine ⟨rest ++ bytes, ⟨hh₁, by simp, hsame₁⟩, fun htotal hfits => ?_⟩
    exact iff_of_true ⟨fun _ => hcredit htotal (by simpa using hfits), by simp, by simp⟩ hok
  rw [if_neg hwriting]
  apply (buffer_chain_send_ends hh₁ outputs).bind
  rintro ⟨pool₂, chain₂, rv', bytes'⟩ ⟨⟨rest', hh₂, hstream⟩, hsent, hsame₂, -⟩
  have hsame := hsame₁.trans hsame₂
  dsimp only
  split_ifs with hfail hmore
  · refine ⟨rest', ⟨hh₂, by simp [hstream], hsame⟩, fun _ _ => iff_of_true ⟨by simp, by simp, ?_⟩ hok⟩
    intro _ hnone
    exact absurd hfail (hnone (.send rv' bytes') (by simp))
  all_goals
    refine ⟨rest', ⟨hh₂, by simp [hstream], hsame⟩, fun htotal hfits => ?_⟩
    obtain ⟨hle, hleft⟩ := charge_total (hcredit htotal (by simpa using hfits)) hstream
    rw [← hsent] at hle hleft
    exact iff_of_true ⟨fun _ => hleft, by simpa using hle, by simp⟩ hok

theorem runCallback_spec (hh : Holds g.pool conn.chain o rest) (callback : Callback) :
    (runCallback g conn callback).Ends fun r =>
      ∃ rest', Echoed g r.1 r.2.1 o rest r.2.2 rest' ∧
        (conn.total.toNat = rest.length → rest.length + (r.2.2.flatMap Entry.received).length < 2 ^ 64 →
          (Balanced r.2.1 r.2.2 rest' ↔ callback.Clean g conn)) := by
  cases callback with
  | read inputs outputs => exact client_readcb_spec hh inputs outputs
  | write outputs =>
    apply (client_writecb_spec hh outputs).mono
    rintro r ⟨rest', hechoed, hbalanced⟩
    exact ⟨rest', hechoed, fun htotal _ => iff_of_true (hbalanced htotal) trivial⟩

/-! ## The server -/

def connOf (c : client) : Buffer.conn := ⟨c.conn.chain, c.received, c.sent⟩

def worldOf (s : server) : world := ⟨s.statics.pool, s.clients.map connOf⟩

theorem echo_of_inv (hi : Inv (worldOf s) [] f cs) (hc : s.clients[i]? = some c) :
    c.sent ++ pending s.statics.pool c.conn.chain = c.received := by
  have hconn : (worldOf s).conns[i]? = some (connOf c) := by
    unfold worldOf
    rw [List.getElem?_map, hc]
    rfl
  obtain ⟨rest, hh, hsum⟩ := hi.holds hconn
  have hpending : pending s.statics.pool c.conn.chain = rest := pending_eq hh
  rw [hpending]
  exact hsum

/-- What a chain holds is in memory, so a `size_t` can count it. -/
def Fits (s : server) (c : client) (log : List Entry) : Prop :=
  (pending s.statics.pool c.conn.chain).length + (log.flatMap Entry.received).length < 2 ^ 64

instance (s : server) (c : client) (log : List Entry) : Decidable (Fits s c log) :=
  inferInstanceAs (Decidable (_ < _))

/-- What a callback on an open connection did. -/
structure Invoked (s : server) (i : Nat) (c : client) (callback : Callback) (s' : server) (log : List Entry)
    (c' : client) : Prop where
  clients : s'.clients = s.clients.set i c'
  opened : c'.opened = (c.opened && !log.contains .close)
  inv : ∃ f cs, Inv (worldOf s') [] f cs
  balanced : c.conn.total.toNat = (pending s.statics.pool c.conn.chain).length → Fits s c log →
    (Balanced c'.conn log (pending s'.statics.pool c'.conn.chain) ↔ callback.Clean s.statics c.conn)

theorem invoke_spec (hi : Inv (worldOf s) [] f cs) (hc : s.clients[i]? = some c) (callback : Callback) :
    (invoke s i callback).Ends fun r => ∃ c', Invoked s i c callback r.1 r.2 c' := by
  have hconn : (worldOf s).conns[i]? = some (connOf c) := by
    unfold worldOf
    rw [List.getElem?_map, hc]
    rfl
  obtain ⟨rest, hh, hsum⟩ := hi.holds hconn
  have hpending : pending s.statics.pool c.conn.chain = rest := pending_eq hh
  unfold invoke
  rw [hc, Outcome.ofOption_some, Outcome.done_bind]
  apply (runCallback_spec hh callback).bind
  rintro ⟨statics, conn, log⟩ ⟨rest', hechoed, hbalanced⟩
  have hsum' : (c.sent ++ log.flatMap Entry.sent) ++ rest' = c.received ++ log.flatMap Entry.received := by
    rw [List.append_assoc, ← hechoed.stream, ← List.append_assoc]
    exact congrArg (· ++ log.flatMap Entry.received) hsum
  refine ⟨_, rfl, rfl, ?_, ?_⟩
  · show ∃ f cs, Inv ⟨statics.pool, (s.clients.set i _).map connOf⟩ [] f cs
    rw [List.map_set]
    exact hi.set hconn hechoed.holds hsum' hechoed.same
  · intro htotal hfits
    unfold Fits at hfits
    rw [hpending] at htotal hfits
    rw [pending_eq hechoed.holds]
    exact hbalanced htotal hfits

/-! ## Runs -/

inductive Call where
  | accept
  | callback (i : Nat) (callback : Callback)

/-- A call that returned. -/
def Answered (s : server) (call : Call) (s' : server) : Prop :=
  match call with
  | .accept => serverAccept s = .done s'
  | .callback i callback => ∃ log, invoke s i callback = .done (s', log)

theorem serverAccept_start (hdone : serverAccept s = .done s') : start (worldOf s) = .done (worldOf s', 1) := by
  obtain ⟨⟨pool, buf⟩, hget, hpure⟩ := Outcome.bind_eq_done.mp hdone
  obtain rfl := Outcome.done.inj hpure
  unfold start worldOf
  rw [hget, List.map_append]
  rfl

theorem serverAccept_inv (hi : Inv (worldOf s) [] f cs) (hdone : serverAccept s = .done s') :
    ∃ f cs, Inv (worldOf s') [] f cs := by
  obtain ⟨w', hstart, hi'⟩ := start_spec hi
  obtain ⟨rfl, -⟩ := Prod.mk.inj (Outcome.done.inj ((serverAccept_start hdone).symm.trans hstart))
  exact hi'

theorem Answered.inv {call : Call} (hi : Inv (worldOf s) [] f cs) (hanswered : Answered s call s') :
    ∃ f cs, Inv (worldOf s') [] f cs := by
  cases call with
  | accept => exact serverAccept_inv hi hanswered
  | callback i callback =>
    obtain ⟨log, hdone⟩ := hanswered
    obtain ⟨c, hc, -⟩ := Outcome.bind_eq_done.mp hdone
    obtain ⟨c', hv⟩ := (Outcome.ends_iff.mp (invoke_spec hi (Outcome.ofOption_eq_done.mp hc) callback)).2 _ hdone
    exact hv.inv

theorem echoed_in_order_of_run {maxsize : Int} {pool : buffer_pool} {calls : List Call}
    (hnew : buffer_pool_create true maxsize = some pool) (hrun : Run Answered ⟨⟨pool, 0, 0⟩, []⟩ calls s) :
    ∀ c ∈ s.clients, c.sent ++ pending s.statics.pool c.conn.chain = c.received := by
  have hinv : ∃ f cs, Inv (worldOf s) [] f cs := by
    apply hrun.invariant (P := fun s => ∃ f cs, Inv (worldOf s) [] f cs) _ ⟨_, _, new_inv hnew⟩
    rintro s call s' ⟨f, cs, hi⟩ hanswered
    exact hanswered.inv hi
  obtain ⟨f, cs, hi⟩ := hinv
  intro c hmem
  obtain ⟨i, hc⟩ := List.mem_iff_getElem?.mp hmem
  exact echo_of_inv hi hc

/-! ## Runs that keep to the condition -/

/-- A call that returned. A callback is that of an open connection, and does not find the end of the file after
bytes. -/
def Served (s : server) (call : Call) (s' : server) : Prop :=
  match call with
  | .accept => serverAccept s = .done s'
  | .callback i callback => ∃ c log, s.clients[i]? = some c ∧ c.opened = true ∧ callback.Clean s.statics c.conn ∧
    invoke s i callback = .done (s', log) ∧ Fits s c log

structure Kept (s : server) : Prop where
  inv : ∃ f cs, Inv (worldOf s) [] f cs
  total : ∀ c ∈ s.clients, c.opened = true → c.conn.total.toNat = (pending s.statics.pool c.conn.chain).length

theorem pending_same {f' : List Nat} {cs' : List (Buffer.conn × List Nat)} (hi : Inv (worldOf s) [] f cs)
    (hi' : Inv (worldOf s') [] f' cs') (hc : s.clients[i]? = some c) (hc' : s'.clients[i]? = some c) :
    pending s'.statics.pool c.conn.chain = pending s.statics.pool c.conn.chain :=
  List.append_cancel_left ((echo_of_inv hi' hc').trans (echo_of_inv hi hc).symm)

theorem Kept.accept (hk : Kept s) (hdone : serverAccept s = .done s') : Kept s' := by
  obtain ⟨f, cs, hi⟩ := hk.inv
  obtain ⟨f', cs', hi'⟩ := serverAccept_inv hi hdone
  refine ⟨⟨f', cs', hi'⟩, ?_⟩
  obtain ⟨⟨pool, buf⟩, hget, hpure⟩ := Outcome.bind_eq_done.mp hdone
  obtain rfl := Outcome.done.inj hpure
  intro c hmem hopened
  rcases List.mem_append.mp hmem with hold | hnew
  · obtain ⟨i, hc⟩ := List.mem_iff_getElem?.mp hold
    rw [pending_same hi hi' hc (List.getElem?_append_left (List.getElem?_eq_some_iff.mp hc).1 ▸ hc)]
    exact hk.total c hold hopened
  · obtain ⟨i, hc⟩ := List.mem_iff_getElem?.mp hmem
    have hempty := echo_of_inv hi' hc
    rw [List.mem_singleton.mp hnew] at hempty ⊢
    exact (congrArg List.length (List.append_eq_nil_iff.mp hempty).2).symm

theorem Kept.invoked {callback : Callback} {c' : client} (hk : Kept s) (hv : Invoked s i c callback s' log c')
    (hbalanced : Balanced c'.conn log (pending s'.statics.pool c'.conn.chain)) : Kept s' := by
  obtain ⟨f, cs, hi⟩ := hk.inv
  obtain ⟨f', cs', hi'⟩ := hv.inv
  refine ⟨hv.inv, ?_⟩
  intro c₁ hmem hopened
  obtain ⟨j, hc₁⟩ := List.mem_iff_getElem?.mp hmem
  have hset := hc₁
  rw [hv.clients, List.getElem?_set] at hset
  split_ifs at hset with hij hlt
  · obtain rfl := Option.some.inj hset
    rw [hv.opened] at hopened
    exact hbalanced.total (by simpa using (Bool.and_eq_true_iff.mp hopened).2)
  · rw [pending_same hi hi' hset hc₁]
    exact hk.total c₁ (List.mem_of_getElem? hset) hopened

theorem Kept.served {call : Call} (hk : Kept s) (hserved : Served s call s') : Kept s' := by
  cases call with
  | accept => exact hk.accept hserved
  | callback i callback =>
    obtain ⟨c, log, hc, hopened, hclean, hdone, hfits⟩ := hserved
    obtain ⟨f, cs, hi⟩ := hk.inv
    obtain ⟨c', hv⟩ := (Outcome.ends_iff.mp (invoke_spec hi hc callback)).2 _ hdone
    have htotal := hk.total c (List.mem_of_getElem? hc) hopened
    exact hk.invoked hv ((hv.balanced htotal hfits).mpr hclean)

/-- In every run where no callback finds the end of the file after bytes, `total` is what is pending on every open
connection. A further callback leaves the accounts in order if and only if it does not find the end of the file
after bytes. -/
theorem echo_accounts_of_run {maxsize : Int} {pool : buffer_pool} {calls : List Call}
    (hnew : buffer_pool_create true maxsize = some pool) (hrun : Run Served ⟨⟨pool, 0, 0⟩, []⟩ calls s) :
    (∀ c ∈ s.clients, c.opened = true → c.conn.total.toNat = (pending s.statics.pool c.conn.chain).length) ∧
    ∀ i c callback, s.clients[i]? = some c → c.opened = true →
      invoke s i callback ≠ .fault ∧ ∀ s' log, invoke s i callback = .done (s', log) → Fits s c log →
        ∃ c', s'.clients = s.clients.set i c' ∧
          (Balanced c'.conn log (pending s'.statics.pool c'.conn.chain) ↔ callback.Clean s.statics c.conn) := by
  have hkept : Kept s := by
    apply hrun.invariant fun s call s' hk hserved => Kept.served hk hserved
    exact ⟨⟨_, _, new_inv hnew⟩, by simp⟩
  obtain ⟨f, cs, hi⟩ := hkept.inv
  refine ⟨hkept.total, ?_⟩
  intro i c callback hc hopened
  obtain ⟨hok, hends⟩ := Outcome.ends_iff.mp (invoke_spec hi hc callback)
  refine ⟨hok, ?_⟩
  intro s' log hdone hfits
  obtain ⟨c', hv⟩ := hends _ hdone
  exact ⟨c', hv.clients, hv.balanced (hkept.total c (List.mem_of_getElem? hc) hopened) hfits⟩

/-- A new connection. -/
def oneClient : server := (serverAccept ⟨⟨newPool, 0, 0⟩, []⟩).toOption.get (by decide)

/-- Three bytes came in on it, and `writev` had no room for them. -/
def threePending : server × List Entry :=
  (invoke oneClient 0 (.read [.bytes 1 [2, 3]] [.eagain])).toOption.get (by decide)

theorem oneClient_accepted : serverAccept ⟨⟨newPool, 0, 0⟩, []⟩ = .done oneClient :=
  Outcome.toOption_eq_some.mp (Option.some_get _).symm

theorem threePending_run :
    Run Served ⟨⟨newPool, 0, 0⟩, []⟩ [.accept, .callback 0 (.read [.bytes 1 [2, 3]] [.eagain])] threePending.1 := by
  have hread : invoke oneClient 0 (.read [.bytes 1 [2, 3]] [.eagain]) = .done threePending :=
    Outcome.toOption_eq_some.mp (Option.some_get _).symm
  apply (Run.nil.snoc (show Served _ .accept oneClient from oneClient_accepted)).snoc
  exact ⟨_, threePending.2, rfl, rfl, by decide, hread, by decide⟩

theorem echo_accounts_sample :
    (∀ c ∈ threePending.1.clients, c.opened = true →
      c.conn.total.toNat = (pending threePending.1.statics.pool c.conn.chain).length) ∧
    ∀ i c callback, threePending.1.clients[i]? = some c → c.opened = true →
      invoke threePending.1 i callback ≠ .fault ∧
        ∀ s' log, invoke threePending.1 i callback = .done (s', log) → Fits threePending.1 c log →
          ∃ c', s'.clients = threePending.1.clients.set i c' ∧
            (Balanced c'.conn log (pending s'.statics.pool c'.conn.chain) ↔
              callback.Clean threePending.1.statics c.conn) :=
  echo_accounts_of_run (show buffer_pool_create true 10 = some newPool from rfl) threePending_run

/-- A read that fills both vectors of a new connection, and the end of the file behind it. -/
def lastRead : Callback := .read [.bytes 1 (List.replicate 8111 2), .eof] []

/-- The connection is closed without an error, and the 8112 bytes that came in are still in its chain. -/
theorem closed_with_bytes_left :
    serverAccept ⟨⟨newPool, 0, 0⟩, []⟩ = .done oneClient ∧
    ∃ s' log c', invoke oneClient 0 lastRead = .done (s', log) ∧ .close ∈ log ∧ (∀ e ∈ log, ¬ e.Failed) ∧
      s'.clients = [c'] ∧ (pending s'.statics.pool c'.conn.chain).length = 8112 := by
  refine ⟨oneClient_accepted, ?_⟩
  have hnew : Inv (worldOf ⟨⟨newPool, 0, 0⟩, []⟩) [] [] [] :=
    new_inv (show buffer_pool_create true 10 = some newPool from rfl)
  obtain ⟨f, cs, hi⟩ := serverAccept_inv hnew oneClient_accepted
  have hcomputed : (invoke oneClient 0 lastRead).toOption.map (fun r =>
      (r.2.contains .close, r.2.all fun e => !decide e.Failed, r.1.clients.map fun c =>
        (c.received.length, c.sent.length))) = some (true, true, [(8112, 0)]) := by decide +kernel
  obtain ⟨⟨s', log⟩, hdone, hsummary⟩ := Option.map_eq_some_iff.mp hcomputed
  have hinvoke := Outcome.toOption_eq_some.mp hdone
  simp only [Prod.mk.injEq, List.map_eq_singleton_iff] at hsummary
  obtain ⟨hclose, hok, c', hclients, hreceived, hsent⟩ := hsummary
  obtain ⟨c₁, hv⟩ := (Outcome.ends_iff.mp (invoke_spec hi rfl lastRead)).2 _ hinvoke
  obtain ⟨f', cs', hi'⟩ := hv.inv
  have hecho := congrArg List.length (echo_of_inv hi' (show s'.clients[0]? = some c' by rw [hclients]; rfl))
  rw [List.length_append, hreceived, hsent, Nat.zero_add] at hecho
  exact ⟨s', log, c', hinvoke, by simpa using hclose, by simpa using hok, hclients, hecho⟩

end Akio.Demo
