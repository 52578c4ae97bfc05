import Akio.Lib.Ledger

/-!
# Connections and servers of `kznet/socket.c`

What the kernel answers is an argument, an `errno` where a call fails. `uses` is what was acquired and released so
far, in order, and the loop over the addresses returns where the source jumps to a label behind it.
-/

namespace Akio.Socket

open Ledger

def SOCKET_ERR_LEN : Nat := 256
def CONNECT_NONBLOCK : BitVec 32 := 1#32

/-- The numbers of Linux. -/
def EINPROGRESS : Int := 115
def O_NONBLOCK : BitVec 32 := 0x800#32

inductive Resource where
  | descriptor (fd : Int)
  | servinfo
deriving DecidableEq, Repr

/-- `err` is `none` for NULL. -/
structure process where
  errno : Int
  err : Option String
  uses : List (Use Resource)

/-- What the calls for one address of the list answer. -/
structure addrinfo where
  socket : Except Int Nat
  setsockopt : Option Int
  getfl : Except Int (BitVec 32)
  setfl : BitVec 32 → Option Int
  connect : Option Int
  bind : Option Int
  listen : Option Int
  close : Option Int

variable (strerror gai_strerror : Int → String)

def socket_error (proc : process) (text : String) : process :=
  { proc with err := proc.err.map fun _ => String.ofList (text.toList.take (SOCKET_ERR_LEN - 1)) }

/-! ## Calls -/

/-- A call that returns 0 or -1. -/
def syscall (proc : process) : Option Int → process × Int
  | none => (proc, 0)
  | some errno => ({ proc with errno }, -1)

def socket (proc : process) : Except Int Nat → process × Int
  | .ok fd => ({ proc with uses := proc.uses ++ [.acquire (.descriptor fd)] }, fd)
  | .error errno => ({ proc with errno }, -1)

def close (proc : process) (fd : Int) (answer : Option Int) : process :=
  let (proc, _) := syscall proc answer
  { proc with uses := proc.uses ++ [.release (.descriptor fd)] }

def freeaddrinfo (proc : process) : process :=
  { proc with uses := proc.uses ++ [.release .servinfo] }

def set_nonblock (proc : process) (getfl : Except Int (BitVec 32)) (setfl : BitVec 32 → Option Int) :
    process × Int :=
  match getfl with
  | .error errno => (socket_error { proc with errno } ("fcntl(F_GETFL): " ++ strerror errno), -1)
  | .ok flags =>
    let (proc, rv) := syscall proc (setfl (flags ||| O_NONBLOCK))
    if rv = -1 then (socket_error proc ("fcntl(F_SETFL,O_NONBLOCK): " ++ strerror proc.errno), -1)
    else (proc, 0)

def set_reuseaddr (proc : process) (setsockopt : Option Int) : process × Int :=
  let (proc, rv) := syscall proc setsockopt
  if rv = -1 then (socket_error proc ("setsockopt SO_REUSEADDR: " ++ strerror proc.errno), -1)
  else (proc, 0)

/-! ## `tcp_connect` -/

/-- The label `error`. -/
def connectError (proc : process) (s : Int) (answer : Option Int) : process × Int :=
  if s ≠ -1 then (close proc s answer, -1) else (proc, s)

/-- `flags & CONNECT_NONBLOCK && set_nonblock(err, s) != 0`, where the last result is not 0. -/
def connectNonblock (flags : BitVec 32) (proc : process) (p : addrinfo) : process × Int :=
  if flags &&& CONNECT_NONBLOCK ≠ 0 then set_nonblock strerror proc p.getfl p.setfl else (proc, 0)

/-- The loop of `tcp_connect`, and what follows it up to the label `end`. -/
def connectLoop (flags : BitVec 32) (proc : process) (s : Int) : List addrinfo → process × Int
  | [] => connectError (socket_error proc ("creating socket: " ++ strerror proc.errno)) s none
  | p :: servinfo =>
    let (proc, s) := socket proc p.socket
    if s = -1 then connectLoop flags proc s servinfo
    else
      let (proc, rv) := set_reuseaddr strerror proc p.setsockopt
      if rv ≠ 0 then connectError proc s p.close
      else
        let (proc, rv) := connectNonblock strerror flags proc p
        if rv ≠ 0 then connectError proc s p.close
        else
          let (proc, rv) := syscall proc p.connect
          if rv = -1 then
            if proc.errno = EINPROGRESS ∧ flags &&& CONNECT_NONBLOCK ≠ 0 then (proc, s)
            else connectLoop flags (close proc s p.close) (-1) servinfo
          else (proc, s)

/-- `getaddrinfo` answers with a list that is to be freed. -/
def tcp_connect (proc : process) (getaddrinfo : Except Int (List addrinfo)) (flags : BitVec 32) : process × Int :=
  match getaddrinfo with
  | .error rv => (socket_error proc (gai_strerror rv), -1)
  | .ok servinfo =>
    let (proc, s) := connectLoop strerror flags { proc with uses := proc.uses ++ [.acquire .servinfo] } (-1) servinfo
    (freeaddrinfo proc, s)

/-! ## `tcp_server_serve` -/

/-- The loop of `tcp_server_serve`, and what follows it up to the label `end`. -/
def serveLoop (proc : process) : List addrinfo → process × Int
  | [] => (socket_error proc "unable to bind socket", -1)
  | p :: servinfo =>
    let (proc, sfd) := socket proc p.socket
    if sfd = -1 then serveLoop proc servinfo
    else
      let (proc, rv) := set_reuseaddr strerror proc p.setsockopt
      if rv ≠ 0 then (proc, -1)
      else
        let (proc, rv) := syscall proc p.bind
        if rv ≠ 0 then (close (socket_error proc ("bind: " ++ strerror proc.errno)) sfd p.close, -1)
        else
          let (proc, rv) := syscall proc p.listen
          if rv ≠ 0 then (close (socket_error proc ("listen: " ++ strerror proc.errno)) sfd p.close, -1)
          else (proc, sfd)

def tcp_server_serve (proc : process) (getaddrinfo : Except Int (List addrinfo)) : process × Int :=
  match getaddrinfo with
  | .error rv => (socket_error proc (gai_strerror rv), -1)
  | .ok servinfo =>
    let (proc, sfd) := serveLoop strerror { proc with uses := proc.uses ++ [.acquire .servinfo] } servinfo
    (freeaddrinfo proc, sfd)

end Akio.Socket
