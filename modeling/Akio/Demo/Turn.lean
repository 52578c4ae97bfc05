import Akio.Demo.Echo

/-!
# What a callback asks of the registry

Each callback of a connection makes at most one call of `create_event` or `delete_event`. It keeps `eof` and `writing`
in step with what is registered.
-/

namespace Akio.Demo

open Buffer Event

variable {g g' : statics} {conn conn' : connection} {rest rest' : List byte} {log : List Entry} {callback : Callback}

def Entry.asks : Entry → Bool
  | .create_event _ | .delete_event _ => true
  | _ => false

/-- The calls on the registry. -/
def requests (log : List Entry) : List Entry := log.filter Entry.asks

/-- The directions that are registered for a connection. -/
def watch (conn : connection) : BitVec 32 :=
  (if conn.eof then EV_NONE else EV_RDABLE) ||| (if conn.writing then EV_WRABLE else EV_NONE)

/-- What a callback did to the flags, for each way through it. The first four are ways through `client_readcb`, the
next two ways through `client_writecb`. -/
inductive Turned (conn conn' : connection) (log : List Entry) : Callback → Prop where
  | waits {inputs : List Input} {outputs : List Output} (hopen : .close ∉ log) (hasks : requests log = [])
      (heof : conn'.eof = conn.eof) (hold : conn.writing = true) (hwriting : conn'.writing = true)
      (hsent : log.flatMap Entry.sent = []) : Turned conn conn' log (.read inputs outputs)
  | echoes {inputs : List Input} {outputs : List Output} (hopen : .close ∉ log) (hasks : requests log = [])
      (heof : conn'.eof = conn.eof) (hold : conn.writing = false) (hwriting : conn'.writing = false)
      (htotal : conn'.total = 0#64) : Turned conn conn' log (.read inputs outputs)
  | starts {inputs : List Input} {outputs : List Output} (hopen : .close ∉ log)
      (hasks : requests log = [.create_event EV_WRABLE]) (heof : conn'.eof = conn.eof) (hold : conn.writing = false)
      (hwriting : conn'.writing = true) (htotal : conn'.total ≠ 0#64) : Turned conn conn' log (.read inputs outputs)
  | ends {inputs : List Input} {outputs : List Output} (hopen : .close ∉ log)
      (hasks : requests log = [.delete_event EV_RDABLE]) (heof : conn'.eof = true)
      (hwriting : conn'.writing = conn.writing) (htotal : conn'.total = conn.total) (hsome : conn.total ≠ 0#64) :
      Turned conn conn' log (.read inputs outputs)
  | continues {outputs : List Output} (hopen : .close ∉ log) (hasks : requests log = []) (heof : conn'.eof = conn.eof)
      (hwriting : conn'.writing = conn.writing) (htotal : conn'.total ≠ 0#64) : Turned conn conn' log (.write outputs)
  | drains {outputs : List Output} (hopen : .close ∉ log) (hasks : requests log = [.delete_event EV_WRABLE])
      (heof : conn'.eof = conn.eof) (hwriting : conn'.writing = false) (htotal : conn'.total = 0#64) :
      Turned conn conn' log (.write outputs)
  | closes {callback : Callback} (hclosed : .close ∈ log)
      (hasks : requests log = [.delete_event (EV_RDABLE ||| EV_WRABLE)]) : Turned conn conn' log callback

theorem Turned.asks (ht : Turned conn conn' log callback) :
    requests log = [] ∨ requests log = [.create_event EV_WRABLE] ∨ ∃ event, requests log = [.delete_event event] := by
  cases ht with
  | waits _ hasks | echoes _ hasks | continues _ hasks => exact Or.inl hasks
  | starts _ hasks => exact Or.inr (Or.inl hasks)
  | ends _ hasks | drains _ hasks | closes _ hasks => exact Or.inr (Or.inr ⟨_, hasks⟩)

theorem pos_iff {total : BitVec 64} : total > 0#64 ↔ total ≠ 0#64 := by
  rw [gt_iff_lt, BitVec.lt_def, BitVec.toNat_ne_iff_ne.symm]
  exact Nat.pos_iff_ne_zero

theorem client_writecb_turned {outputs : List Output} (hdone : client_writecb g conn outputs = .done (g', conn', log)) :
    Turned conn conn' log (.write outputs) := by
  obtain ⟨⟨pool, chain, rv, bytes⟩, -, hdone⟩ := Outcome.bind_eq_done.mp hdone
  dsimp only at hdone
  split_ifs at hdone with hfail hzero heof
  · cases hdone
    exact .closes (by simp) rfl
  · cases hdone
    exact .drains (by simp) rfl rfl rfl hzero
  · cases hdone
    exact .drains (by simp) rfl rfl rfl hzero
  · cases hdone
    exact .continues (by simp) rfl rfl rfl hzero

theorem client_readcb_turned {inputs : List Input} {outputs : List Output}
    (hdone : client_readcb g conn inputs outputs = .done (g', conn', log)) :
    Turned conn conn' log (.read inputs outputs) := by
  obtain ⟨⟨pool, chain, rv, bytes⟩, -, hdone⟩ := Outcome.bind_eq_done.mp hdone
  dsimp only at hdone
  split_ifs at hdone with hclose hzero hwriting
  · cases hdone
    exact .closes (by simp) rfl
  · cases hdone
    exact .ends (by simp) rfl rfl rfl rfl fun hnone => hclose (Or.inr ⟨hzero, hnone⟩)
  · cases hdone
    exact .waits (by simp) rfl rfl hwriting hwriting rfl
  · obtain ⟨⟨pool', chain', rv', bytes'⟩, -, hdone⟩ := Outcome.bind_eq_done.mp hdone
    dsimp only at hdone
    split_ifs at hdone with hfail hmore
    · cases hdone
      exact .closes (by simp) rfl
    · cases hdone
      exact .starts (by simp) rfl rfl (Bool.not_eq_true _ ▸ hwriting) rfl (pos_iff.mp hmore)
    · cases hdone
      refine .echoes (by simp) rfl rfl (Bool.not_eq_true _ ▸ hwriting) (Bool.not_eq_true _ ▸ hwriting) ?_
      exact Decidable.byContradiction fun hne => hmore (pos_iff.mpr hne)

theorem runCallback_turned (hdone : runCallback g conn callback = .done (g', conn', log)) :
    Turned conn conn' log callback := by
  cases callback with
  | read inputs outputs => exact client_readcb_turned hdone
  | write outputs => exact client_writecb_turned hdone

/-! ## `writing` -/

/-- While `total` is what a chain holds, `writing` is set where there is something to write. -/
theorem Turned.writing_iff (ht : Turned conn conn' log callback) (hb : Balanced conn' log rest')
    (hopen : .close ∉ log) (htotal : conn.total.toNat = rest.length)
    (hstream : rest ++ log.flatMap Entry.received = log.flatMap Entry.sent ++ rest')
    (hwriting : conn.writing = true ↔ rest ≠ [])
    (hwrite : ∀ outputs, callback = .write outputs → conn.writing = true) :
    conn'.writing = true ↔ rest' ≠ [] := by
  have hleft := hb.total hopen
  have hnone : conn'.total = 0#64 ↔ rest' = [] := total_zero_iff hleft
  cases ht with
  | waits _ _ _ hold hnew hsent =>
    rw [hsent, List.nil_append] at hstream
    rw [← hstream, iff_true_left hnew]
    exact fun h => hwriting.mp hold (List.append_eq_nil_iff.mp h).1
  | echoes _ _ _ _ hnew hzero => simp [hnew, hnone.mp hzero]
  | starts _ _ _ _ hnew hsome => exact iff_of_true hnew (mt hnone.mpr hsome)
  | ends _ _ _ hsame hkept hsome =>
    rw [hsame, hwriting]
    exact iff_of_true (mt (total_zero_iff htotal).mpr hsome) (mt hnone.mpr (hkept ▸ hsome))
  | continues _ _ _ hsame hsome => exact iff_of_true (hsame.trans (hwrite _ rfl)) (mt hnone.mpr hsome)
  | drains _ _ _ hnew hzero => simp [hnew, hnone.mp hzero]
  | closes hclosed => exact absurd hclosed hopen

end Akio.Demo
