import Akio.Socket.Model

/-!
# Descriptors and their options in `kznet/socket.c`

`tcp_accept` also fills in the address of the other side, which is left out.
-/

namespace Akio.Socket

open Ledger

def FD_CLOEXEC : BitVec 32 := 1#32

/-- The descriptor was opened and not closed since. -/
def isOpen (proc : process) (fd : Int) : Bool := live proc.uses (.descriptor fd)

section
variable (strerror : Int → String)

/-- `setsockopt` for one option, and `text` for the error. -/
def checkedSetsockopt (text : String) (proc : process) (setsockopt : Option Int) : process × Int :=
  let (proc, rv) := syscall proc setsockopt
  if rv = -1 then (socket_error proc (text ++ strerror proc.errno), -1) else (proc, 0)

/-- `fcntl` to read the flags and once more to add one, and the texts for the errors. -/
def addFlag (get set : String) (flag : BitVec 32) (proc : process) (getfl : Except Int (BitVec 32))
    (setfl : BitVec 32 → Option Int) : process × Int :=
  match getfl with
  | .error errno => (socket_error { proc with errno } (get ++ strerror errno), -1)
  | .ok flags =>
    let (proc, rv) := syscall proc (setfl (flags ||| flag))
    if rv = -1 then (socket_error proc (set ++ strerror proc.errno), -1) else (proc, 0)

def set_close_on_exec : process → Except Int (BitVec 32) → (BitVec 32 → Option Int) → process × Int :=
  addFlag strerror "fcntl(F_GETFD): " "fcntl(F_SETFD,FD_CLOEXEC): " FD_CLOEXEC

def set_tcp_nodelay : process → Option Int → process × Int :=
  checkedSetsockopt strerror "setsockopt TCP_NODELAY: "

def set_tcp_keepalive : process → Option Int → process × Int :=
  checkedSetsockopt strerror "setsockopt SO_KEEPALIVE: "

theorem set_reuseaddr_eq : set_reuseaddr strerror = checkedSetsockopt strerror "setsockopt SO_REUSEADDR: " := rfl

theorem set_nonblock_eq : set_nonblock strerror =
    addFlag strerror "fcntl(F_GETFL): " "fcntl(F_SETFL,O_NONBLOCK): " O_NONBLOCK := rfl

end

/-- `err` is not written. -/
def tcp_accept (proc : process) (accept : Except Int Nat) : process × Int := socket proc accept

/-! ## What the caller sees -/

variable {strerror : Int → String} {proc : process} {text get set : String} {flag : BitVec 32}
  {getfl : Except Int (BitVec 32)} {setfl : BitVec 32 → Option Int}

/-- The buffer for the error, and the result. -/
def seen (r : process × Int) : Option String × Int := (r.1.err, r.2)

/-- The buffer is written where the call fails, and only then. -/
def reported (err : Option String) : Except String Nat → Option String × Int
  | .ok fd => (err, fd)
  | .error text => (err.map fun _ => String.ofList (text.toList.take (SOCKET_ERR_LEN - 1)), -1)

@[simp] theorem syscall_err (answer : Option Int) : (syscall proc answer).1.err = proc.err := by
  cases answer <;> rfl

theorem checkedSetsockopt_seen (answer : Option Int) : seen (checkedSetsockopt strerror text proc answer) =
    reported proc.err (answer.elim (.ok 0) fun errno => .error (text ++ strerror errno)) := by
  cases answer <;> rfl

@[simp] theorem checkedSetsockopt_uses (answer : Option Int) :
    (checkedSetsockopt strerror text proc answer).1.uses = proc.uses := by
  cases answer <;> rfl

/-- The text of the call that fails. -/
def flagFailure (strerror : Int → String) (get set : String) (flag : BitVec 32) (getfl : Except Int (BitVec 32))
    (setfl : BitVec 32 → Option Int) : Option String :=
  match getfl with
  | .error errno => some (get ++ strerror errno)
  | .ok flags => (setfl (flags ||| flag)).map fun errno => set ++ strerror errno

theorem addFlag_of_none (h : flagFailure strerror get set flag getfl setfl = none) :
    addFlag strerror get set flag proc getfl setfl = (proc, 0) := by
  cases getfl with
  | error errno => cases h
  | ok flags =>
    unfold addFlag
    dsimp only
    rw [Option.map_eq_none_iff.mp h]
    rfl

theorem addFlag_of_some (h : flagFailure strerror get set flag getfl setfl = some text) :
    seen (addFlag strerror get set flag proc getfl setfl) = reported proc.err (.error text) := by
  cases getfl with
  | error errno =>
    obtain rfl := Option.some.inj h
    rfl
  | ok flags =>
    obtain ⟨errno, hset, rfl⟩ := Option.map_eq_some_iff.mp h
    unfold addFlag
    dsimp only
    rw [hset]
    rfl

end Akio.Socket
