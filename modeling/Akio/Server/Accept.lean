import Akio.Server.Model
import Akio.Socket.Leaks

/-!
# New clients

What one turn of the loop of `server_accept_cb` does to the clients and to the open descriptors.
-/

namespace Akio.Server

open Buffer Socket Ledger

variable {strerror : Int → String} {proc : process} {fd fd' : Int} {option : process × Int} {ans : Option Int}
  {s s' : Demo.server} {f : List Nat} {cs : List (Buffer.conn × List Nat)} {opened : Bool}

/-! ## Descriptors -/

theorem isOpen_congr {proc' : process} (h : proc'.uses = proc.uses) : isOpen proc' fd = isOpen proc fd := by
  unfold isOpen
  rw [h]

theorem isOpen_close : isOpen (close proc fd ans) fd' = if fd = fd' then false else isOpen proc fd' := by
  unfold isOpen close
  simp only [syscall_uses, live_release, Resource.descriptor.injEq]

theorem isOpen_accept {n : Nat} :
    isOpen (tcp_accept proc (.ok n)).1 fd' = if (n : Int) = fd' then true else isOpen proc fd' := by
  unfold isOpen tcp_accept socket
  simp only [live_acquire, Resource.descriptor.injEq]

@[simp] theorem set_tcp_nodelay_uses : (set_tcp_nodelay strerror proc ans).1.uses = proc.uses :=
  checkedSetsockopt_uses ans

theorem isOpen_unless (hne : fd ≠ fd') : isOpen (closeUnless option fd ans) fd' = isOpen option.1 fd' := by
  unfold closeUnless
  split_ifs
  · rw [isOpen_close, if_neg hne]
  · rfl

/-- The state of the process after a turn of the loop, for the new descriptor. -/
def admitted (strerror : Int → String) (proc : process) (a : accepted) : process :=
  let (proc, cfd) := tcp_accept proc (.ok a.fd)
  let proc := closeUnless (set_nonblock strerror proc a.getfl a.setfl) cfd a.closeBlocking
  closeUnless (set_tcp_nodelay strerror proc a.nodelay) cfd a.closeDelayed

theorem isOpen_admitted {a : accepted} (hne : (a.fd : Int) ≠ fd') :
    isOpen (admitted strerror proc a) fd' = isOpen proc fd' := by
  unfold admitted
  dsimp only
  rw [isOpen_unless (by exact hne), isOpen_congr set_tcp_nodelay_uses, isOpen_unless (by exact hne),
    isOpen_congr set_nonblock_uses, isOpen_accept, if_neg hne]

/-! ## The clients -/

/-- A connection that nothing happened on. -/
structure Unheard (c : Demo.client) : Prop where
  eof : c.conn.eof = false
  writing : c.conn.writing = false
  total : c.conn.total = 0#64
  received : c.received = []
  sent : c.sent = []

theorem modify_last {α : Type} (l : List α) (a : α) (g : α → α) : (l ++ [a]).modify l.length g = l ++ [g a] := by
  induction l with
  | nil => rfl
  | cons b l ih => exact congrArg (b :: ·) ih

theorem addClient_spec (hi : Inv (Demo.worldOf s) [] f cs) (opened : Bool) :
    ∃ s' c, addClient s opened = .done s' ∧ s'.clients = s.clients ++ [c] ∧ c.opened = opened ∧ Unheard c ∧
      (s'.statics.recv_total = s.statics.recv_total ∧ s'.statics.send_total = s.statics.send_total) ∧
      ∃ f cs, Inv (Demo.worldOf s') [] f cs := by
  obtain ⟨w, hstart, -⟩ := start_spec hi
  obtain ⟨⟨pool, buf⟩, hget, -⟩ := Outcome.bind_eq_done.mp hstart
  have haccept : Demo.serverAccept s = .done _ := (congrArg (· >>= _) hget).trans rfl
  obtain ⟨f', cs', hi'⟩ := Demo.serverAccept_inv hi haccept
  let c : Demo.client := ⟨⟨false, false, 0#64, ⟨buf, buf, 0, 0⟩⟩, true, [], []⟩
  refine ⟨_, { c with opened }, (congrArg (· >>= _) haccept).trans rfl, ?_, rfl, ⟨rfl, rfl, rfl, rfl, rfl⟩,
    ⟨rfl, rfl⟩, f', cs', ?_⟩
  · dsimp only
    rw [List.length_append, List.length_singleton, Nat.add_sub_cancel]
    exact modify_last s.clients c _
  · -- Whether a client is open is not part of its chain.
    refine Eq.mp (congrArg (fun w => Inv w [] f' cs') ?_) hi'
    unfold Demo.worldOf
    dsimp only
    rw [List.length_append, List.length_singleton, Nat.add_sub_cancel, modify_last s.clients c, List.map_append,
      List.map_append]
    rfl

/-! ## The calls on the loop -/

variable {K : Type} {k : Bool → K} {u u' : state} {errno : Int} {written : Bool}

/-- The numbers after which the loop just ends. -/
def Retries (errno : Int) : Prop := errno = EAGAIN ∨ errno = EINTR ∨ errno = EWOULDBLOCK

theorem acceptLoop_nil {effects : List (Loop.Effect callback data K)}
    (hdone : acceptLoop strerror k errno u written [] = .done (u', effects)) : u' = u ∧ effects = [] := by
  unfold acceptLoop at hdone
  split_ifs at hdone
  · cases hdone
    exact ⟨rfl, rfl⟩
  · cases hdone
    exact ⟨rfl, rfl⟩

theorem acceptLoop_cons {a : accepted} {accepts : List accepted} {effects : List (Loop.Effect callback data K)}
    (hdone : acceptLoop strerror k errno u written (a :: accepts) = .done (u', effects)) :
    ∃ x i u₁ written₁ effects₁,
      effects = .event (.create x a.fd Event.EV_RDABLE .client_readcb (some i)) :: effects₁ ∧
      acceptLoop strerror k errno u₁ written₁ accepts = .done (u', effects₁) := by
  unfold acceptLoop at hdone
  by_cases hopen : isOpen u.proc a.fd = true
  · rw [if_pos hopen] at hdone
    cases hdone
  · rw [if_neg hopen] at hdone
    obtain ⟨server, -, hdone⟩ := Outcome.bind_eq_done.mp hdone
    obtain ⟨⟨u₁, effects₁⟩, hrest, hpure⟩ := Outcome.bind_eq_done.mp hdone
    cases hpure
    exact ⟨_, _, _, _, effects₁, rfl, hrest⟩

theorem server_accept_cb_faults (strerror : Int → String) (k : Bool → K) (u : state) {ans : answer}
    (hnone : ans.accepts = []) (herrno : ¬ Retries ans.errno) : server_accept_cb strerror k u ans = .fault := by
  unfold server_accept_cb
  rw [hnone]
  unfold acceptLoop
  rw [if_neg (show ¬ (_ ∨ _) from herrno), if_neg Bool.false_ne_true]

end Akio.Server
