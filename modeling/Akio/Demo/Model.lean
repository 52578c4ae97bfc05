import Akio.Buffer.Runs
import Akio.Event.Model

/-!
# The echo connections of `kznet/demo.c`

A callback returns what happened in it, in order. What `readv` and `writev` answer are arguments, and what
`create_event`, `delete_event`, `shutdown` and `close` return is not looked at. A connection also keeps whether
its descriptor is open, and the bytes that came in and went out.
-/

namespace Akio.Demo

open Buffer Event

inductive How where
  | SHUT_RD
  | SHUT_WR
deriving DecidableEq, Repr

/-- A call with what it returned and the bytes it moved, or `sent` bytes taken off `total`. -/
inductive Entry where
  | recv (rv : Int) (bytes : List byte)
  | send (rv : Int) (bytes : List byte)
  | charge (total : BitVec 64) (sent : Nat)
  | create_event (event : BitVec 32)
  | delete_event (event : BitVec 32)
  | shutdown (how : How)
  | close
deriving DecidableEq, Repr

structure connection where
  eof : Bool
  writing : Bool
  total : BitVec 64
  chain : buffer_chain

/-- The variables that the connections share. -/
structure statics where
  pool : buffer_pool
  recv_total : BitVec 64
  send_total : BitVec 64

def client_writecb (g : statics) (conn : connection) (outputs : List Output) :
    Outcome (statics × connection × List Entry) := do
  let (pool, chain, rv, bytes) ← buffer_chain_send g.pool conn.chain outputs
  if rv < 0 then
    return ({ g with pool }, { conn with chain },
      [.send rv bytes, .delete_event (EV_RDABLE ||| EV_WRABLE), .close])
  let total := conn.total - BitVec.ofNat 64 chain.sent
  let g := { g with pool, send_total := g.send_total + BitVec.ofNat 64 chain.sent }
  let log := [.send rv bytes, .charge conn.total chain.sent]
  if total = 0#64 then
    return (g, { conn with chain, total, writing := false },
      log ++ .delete_event EV_WRABLE :: if conn.eof then [.shutdown .SHUT_WR] else [])
  else return (g, { conn with chain, total }, log)

def client_readcb (g : statics) (conn : connection) (inputs : List Input) (outputs : List Output) :
    Outcome (statics × connection × List Entry) := do
  let (pool, chain, rv, bytes) ← buffer_chain_recv true g.pool conn.chain inputs
  let log := [.recv rv bytes]
  if rv < 0 ∨ rv = 0 ∧ conn.total = 0#64 then
    return ({ g with pool }, { conn with chain }, log ++ [.delete_event (EV_RDABLE ||| EV_WRABLE), .close])
  if rv = 0 then
    return ({ g with pool }, { conn with chain, eof := true }, log ++ [.delete_event EV_RDABLE, .shutdown .SHUT_RD])
  let total := conn.total + BitVec.ofNat 64 chain.recv
  let g := { g with pool, recv_total := g.recv_total + BitVec.ofNat 64 chain.recv }
  if conn.writing then return (g, { conn with chain, total }, log)
  let (pool, chain, rv, bytes) ← buffer_chain_send g.pool chain outputs
  if rv < 0 then
    return ({ g with pool }, { conn with chain, total },
      log ++ [.send rv bytes, .delete_event (EV_RDABLE ||| EV_WRABLE), .close])
  let log := log ++ [.send rv bytes, .charge total chain.sent]
  let total := total - BitVec.ofNat 64 chain.sent
  let g := { g with pool, send_total := g.send_total + BitVec.ofNat 64 chain.sent }
  if total > 0#64 then
    return (g, { conn with chain, total, writing := true }, log ++ [.create_event EV_WRABLE])
  else return (g, { conn with chain, total }, log)

/-! ## The server -/

structure client where
  conn : connection
  opened : Bool
  received : List byte
  sent : List byte

structure server where
  statics : Demo.statics
  clients : List client

inductive Callback where
  | read (inputs : List Input) (outputs : List Output)
  | write (outputs : List Output)

def runCallback (g : statics) (conn : connection) : Callback → Outcome (statics × connection × List Entry)
  | .read inputs outputs => client_readcb g conn inputs outputs
  | .write outputs => client_writecb g conn outputs

@[simp] def Entry.received : Entry → List byte
  | .recv _ bytes => bytes
  | _ => []

@[simp] def Entry.sent : Entry → List byte
  | .send _ bytes => bytes
  | _ => []

/-- `server_accept_cb` with a descriptor from `tcp_accept`. -/
def serverAccept (s : server) : Outcome server := do
  let (pool, buf) ← buffer_pool_get true s.statics.pool
  let chain := { rbuf := buf, wbuf := buf, sent := 0, recv := 0 }
  let conn := { eof := false, writing := false, total := 0#64, chain }
  let c := { conn, opened := true, received := [], sent := [] }
  return { statics := { s.statics with pool }, clients := s.clients ++ [c] }

def invoke (s : server) (i : Nat) (callback : Callback) : Outcome (server × List Entry) := do
  let c ← Outcome.ofOption s.clients[i]?
  let (statics, conn, log) ← runCallback s.statics c.conn callback
  let c :=
    { conn
      opened := c.opened && !log.contains .close
      received := c.received ++ log.flatMap Entry.received
      sent := c.sent ++ log.flatMap Entry.sent }
  return ({ statics, clients := s.clients.set i c }, log)

end Akio.Demo
