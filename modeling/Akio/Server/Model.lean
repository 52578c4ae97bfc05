import Akio.Demo.Echo
import Akio.Lib.Rounding
import Akio.Loop.Model
import Akio.Socket.Options
import Mathlib.Data.Rat.Floor

/-!
# The server of `kznet/demo.c`

The callbacks as a program on the loop, and how `main` starts it. `malloc` does not fail and no `writev` raises
SIGPIPE. The kernel gives out no descriptor that is open, and registers none that `server_accept_cb` has closed. One
that is closed while it is registered stays in the poller here, so that more can be reported than the kernel would.
Of what is printed only the numbers of `print_info` are kept.
-/

namespace Akio.Server

open Buffer Socket Loop Rounding
open Event (EV_RDABLE EV_WRABLE Poller create_event event_loop_create)

/-- The functions that the loop calls. -/
inductive callback where
  | server_accept_cb
  | client_readcb
  | client_writecb
  | print_info
deriving DecidableEq, Repr

/-- What a callback gets as its data: NULL, or a connection. -/
abbrev data := Option Nat

/-- The numbers that `print_info` prints: the totals, and the thousandths of `r` and of `s`. -/
structure report where
  recv_total : BitVec 64
  send_total : BitVec 64
  r : Int
  s : Int
deriving DecidableEq

/-- The variables of the server, and of `main` the listening socket. `fds` has the descriptor of each client. -/
structure state where
  proc : process
  sfd : Int
  server : Demo.server
  fds : List Int
  prev_recv : BitVec 64
  prev_send : BitVec 64
  printed : List report

/-- What the calls in one turn of the loop of `server_accept_cb` answer, after an `accept` that did not fail. -/
structure accepted where
  fd : Nat
  getfl : Except Int (BitVec 32)
  setfl : BitVec 32 → Option Int
  closeBlocking : Option Int
  nodelay : Option Int
  closeDelayed : Option Int
  willing : Bool

/-- What the system answers while a callback runs. `errno` is that of the `accept` that fails, and `willing` is for the
`epoll_ctl` of a client's callback. -/
structure answer where
  inputs : List Input
  outputs : List Output
  close : Option Int
  accepts : List accepted
  errno : Int
  willing : Bool

variable {P K R : Type} (strerror gai_strerror : Int → String) (k : Bool → K)

/-! ## The callbacks -/

def EINTR : Int := 4
def EAGAIN : Int := 11
def EWOULDBLOCK : Int := EAGAIN

/-- `if (option(err, cfd) != 0) close(cfd)`, for what the call on the option returned. -/
def closeUnless (option : process × Int) (cfd : Int) (answer : Option Int) : process :=
  if option.2 ≠ 0 then close option.1 cfd answer else option.1

/-- The new client is the last one. Its descriptor may have been closed again. -/
def addClient (server : Demo.server) (opened : Bool) : Outcome Demo.server := do
  let server ← Demo.serverAccept server
  let last := server.clients.length - 1
  return { server with clients := server.clients.modify last fun c => { c with opened } }

/-- The loop ends where `accept` fails. `written` is whether there is a text in `err`, which only a failed option
puts there. -/
def acceptLoop (errno : Int) (u : state) (written : Bool) :
    List accepted → Outcome (state × List (Effect callback data K))
  | [] =>
    if errno = EAGAIN ∨ errno = EINTR ∨ errno = EWOULDBLOCK then return (u, [])
    else if written then return (u, []) else .fault
  | a :: accepts => do
    if isOpen u.proc a.fd then .running
    let (proc, cfd) := tcp_accept u.proc (.ok a.fd)
    let nonblock := set_nonblock strerror proc a.getfl a.setfl
    let proc := closeUnless nonblock cfd a.closeBlocking
    let nodelay := set_tcp_nodelay strerror proc a.nodelay
    let proc := closeUnless nodelay cfd a.closeDelayed
    let opened := isOpen proc cfd
    let server ← addClient u.server opened
    let create := .event (.create (k (a.willing && opened)) cfd EV_RDABLE .client_readcb (some u.fds.length))
    let (u, effects) ← acceptLoop errno { u with proc, server, fds := u.fds ++ [cfd] }
      (written || nonblock.2 != 0 || nodelay.2 != 0) accepts
    return (u, create :: effects)

def server_accept_cb (u : state) (answer : answer) : Outcome (state × List (Effect callback data K)) :=
  acceptLoop strerror k answer.errno u false answer.accepts

/-- What an entry of the log of a client's callback asks of the loop. -/
def effectsOf (willing : Bool) (fd : Int) (i : Nat) : Demo.Entry → List (Effect callback data K)
  | .create_event event => [.event (.create (k willing) fd event .client_writecb (some i))]
  | .delete_event event => [.event (.delete (k willing) fd event)]
  | _ => []

def clientCallback (u : state) (fd : Int) (i : Nat) (answer : answer) (callback : Demo.Callback) :
    Outcome (state × List (Effect Server.callback data K)) := do
  let (server, log) ← Demo.invoke u.server i callback
  let proc := if .close ∈ log then close u.proc fd answer.close else u.proc
  return ({ u with server, proc }, log.flatMap (effectsOf k answer.willing fd i))

/-- `diff / 1024.0 / 1024` as a float. -/
def megabytes (diff : BitVec 64) : ℚ :=
  rounded 24 (rounded 53 (rounded 53 (rounded 53 (diff.toInt : ℚ) / 1024) / 1024))

/-- What `%0.3f` shows of a number, without the point. -/
def thousandths (x : ℚ) : Int := nearest (x * 1000)

def print_info (u : state) : state × Int :=
  let recv_total := u.server.statics.recv_total
  let send_total := u.server.statics.send_total
  let r := megabytes (recv_total - u.prev_recv)
  let s := megabytes (send_total - u.prev_send)
  let printed :=
    if r ≠ 0 ∨ s ≠ 0 then u.printed ++ [⟨recv_total, send_total, thousandths r, thousandths s⟩] else u.printed
  ({ u with prev_recv := recv_total, prev_send := send_total, printed }, 1000)

/-- A function of the other kind is never called, and `conn` is NULL in no callback of a client. -/
def program : Program callback data K state answer where
  event_callback
    | .server_accept_cb, _, _, answer, u => server_accept_cb strerror k u answer
    | .client_readcb, fd, some i, answer, u => clientCallback k u fd i answer (.read answer.inputs answer.outputs)
    | .client_writecb, fd, some i, answer, u => clientCallback k u fd i answer (.write answer.outputs)
    | _, _, _, _, _ => .fault
  timer_callback
    | .print_info, _, _, u => let (u, retval) := print_info u; .done (u, [], retval)
    | _, _, _, _ => .fault

/-! ## `main` -/

/-- What the system answers before the loop starts. -/
structure startup where
  getaddrinfo : Except Int (List addrinfo)
  getfl : Except Int (BitVec 32)
  setfl : BitVec 32 → Option Int
  nodelay : Option Int
  clock : Int
  willing : Bool

/-- What `event_loop_start` is called with, unless `main` returns before. -/
def main (b : Poller callback data P K R) (poller : Option P) (s : startup) (proc : process) :
    Outcome (Option (FullLoop callback data P × state)) := do
  let pool ← Outcome.ofOption (buffer_pool_create true 100)
  let (proc, sfd) := tcp_server_serve strerror gai_strerror proc s.getaddrinfo
  if sfd < 0 then return none
  let (proc, rv) := set_nonblock strerror proc s.getfl s.setfl
  if rv ≠ 0 then return none
  let (proc, rv) := set_tcp_nodelay strerror proc s.nodelay
  if rv ≠ 0 then return none
  let loop ← Outcome.ofOption (event_loop_create true poller (Timer.timer_heap_create true true 10) 100)
  let (timers, _) ← Timer.create_timer true true s.clock loop.timers 1000 (some .print_info) none
  let (loop, _) ← create_event b (k s.willing) { loop with timers } sfd EV_RDABLE .server_accept_cb none
  let server : Demo.server := { statics := { pool, recv_total := 0, send_total := 0 }, clients := [] }
  return some ({ loop with stop := false },
    { proc, sfd, server, fds := [], prev_recv := 0, prev_send := 0, printed := [] })

end Akio.Server
