import Akio.Lib.Block
import Akio.Lib.Store
import Mathlib.Data.Int.Init
import Mathlib.Algebra.Ring.Nat

/-!
# The buffers of `kznet/buffer.c`

The markers of a buffer are offsets from its `start`, so `start` is 0 and `end` is `BUFFER_CAP`. A new
block holds zeros. The pool has the buffers it allocated in `buffers`, and its `tail` is `none` where it
points to `head`. What `malloc`, `readv` and `writev` answer are arguments, and the loops of the two
calls stay `running` once their answers are used up.
-/

namespace Akio.Buffer

open Block

abbrev byte := BitVec 8

def SM_MAX_IOV : Nat := 8
def BUFFER_SIZE : Nat := 4096

/-- Five pointers. -/
def BUFFER_HSIZE : Nat := 40

def BUFFER_CAP : Nat := BUFFER_SIZE - BUFFER_HSIZE

structure buffer where
  pos : Nat
  last : Nat
  next : Ptr
  data : Nat → byte

structure buffer_pool where
  maxsize : Int
  allocs : Int
  size : Int
  head_next : Ptr
  tail : Ptr
  buffers : Store buffer

structure buffer_chain where
  rbuf : Ptr
  wbuf : Ptr
  sent : Nat
  recv : Nat

def buffer_rsize (buf : buffer) : Nat := buf.last - buf.pos
def buffer_wsize (buf : buffer) : Nat := BUFFER_CAP - buf.last

/-- The bytes between `pos` and `last`. -/
def unread (buf : buffer) : List byte := slice buf.data buf.pos buf.last

def buffer_pool_create (malloc : Bool) (maxsize : Int) : Option buffer_pool :=
  if malloc then
    some
      { maxsize := if maxsize < 32 then 32 else maxsize
        allocs := 0, size := 0, head_next := none, tail := none, buffers := .empty }
  else none

/-! ## The pool -/

def buffer_pool_peek (malloc : Bool) (pool : buffer_pool) : buffer_pool × Ptr :=
  if pool.head_next ≠ none then (pool, pool.head_next)
  else if !malloc then (pool, none)
  else
    let (buf, buffers) := pool.buffers.alloc { pos := 0, last := 0, next := none, data := fun _ => 0 }
    ({ pool with
        buffers, head_next := some buf, tail := some buf, size := pool.size + 1, allocs := pool.allocs + 1 },
      some buf)

def buffer_detach (pool : buffer_pool) (buf : Ptr) : Outcome buffer_pool := do
  let n ← pool.buffers.read buf
  let buffers ← pool.buffers.modify buf fun n => { n with next := none }
  let tail := if n.next = none then none else pool.tail
  return { pool with buffers, head_next := n.next, tail, size := pool.size - 1 }

def buffer_pool_get (malloc : Bool) (pool : buffer_pool) : Outcome (buffer_pool × Ptr) := do
  let (pool, buf) := buffer_pool_peek malloc pool
  if buf = none then return (pool, none)
  let pool ← buffer_detach pool buf
  return (pool, buf)

def buffer_pool_put (pool : buffer_pool) (buf : Ptr) : Outcome buffer_pool := do
  if pool.allocs > pool.maxsize then
    let buffers ← pool.buffers.free buf
    return { pool with buffers, allocs := pool.allocs - 1 }
  else
    let buffers ← pool.buffers.modify buf fun n => { n with next := none, pos := 0, last := 0 }
    let pool ←
      if pool.tail = none then pure { pool with buffers, head_next := buf }
      else do
        let buffers ← buffers.modify pool.tail fun n => { n with next := buf }
        pure { pool with buffers }
    return { pool with tail := buf, size := pool.size + 1 }

/-! ## Chains -/

/-- The loop of `shrink_chain`, for a number of turns. -/
def shrinkLoop : Nat → buffer_pool → buffer_chain → Nat → Outcome (buffer_pool × buffer_chain × Ptr)
  | 0, _, _, _ => .running
  | fuel + 1, pool, chain, size => do
    let buf := chain.rbuf
    let n ← pool.buffers.read buf
    let rlen := buffer_rsize n
    if chain.rbuf ≠ chain.wbuf then
      if size ≥ rlen then
        let chain := { chain with rbuf := n.next }
        let pool ← buffer_pool_put pool buf
        shrinkLoop fuel pool chain (size - rlen)
      else
        let buffers ← pool.buffers.modify buf fun n => { n with pos := n.pos + size }
        return ({ pool with buffers }, chain, buf)
    else if size ≤ rlen then
      let buffers ← pool.buffers.modify buf fun n =>
        if n.pos + size = n.last then { n with pos := 0, last := 0 } else { n with pos := n.pos + size }
      return ({ pool with buffers }, chain, buf)
    else .fault

/-- A chain has no more buffers than were ever allocated. -/
def shrink_chain (pool : buffer_pool) (chain : buffer_chain) (size : Nat) :
    Outcome (buffer_pool × buffer_chain × Ptr) :=
  shrinkLoop (pool.buffers.next + 1) pool chain size

/-- What `readv` finds: bytes, of which it takes what fits, the end of the file, or an error. -/
inductive Input where
  | bytes (first : byte) (more : List byte)
  | eof
  | eagain
  | eintr
  | error

/-- `readv` writes to the buffer `buf` from `last` on, and does not move `last`. -/
def fillBuffer (pool : buffer_pool) (buf : Ptr) (bytes : List byte) : Outcome buffer_pool := do
  let buffers ← pool.buffers.modify buf fun n => { n with data := fill n.data n.last bytes }
  return { pool with buffers }

/-- `readv` fills the two vectors in order. -/
def readv (pool : buffer_pool) (wbuf temp : Ptr) (wlen : Nat) (bytes : List byte) : Outcome buffer_pool := do
  let pool ← fillBuffer pool wbuf (bytes.take wlen)
  fillBuffer pool temp (bytes.drop wlen)

/-- The last buffer is full, and `temp` with its `tsize` bytes leaves the pool and comes behind it. -/
def join (pool : buffer_pool) (wbuf temp : Ptr) (wlen tsize : Nat) : Outcome buffer_pool := do
  let buffers ← pool.buffers.modify wbuf fun n => { n with last := n.last + wlen }
  let pool ← buffer_detach { pool with buffers } temp
  let buffers ← pool.buffers.modify temp fun n => { n with last := n.pos + tsize }
  let buffers ← buffers.modify wbuf fun n => { n with next := temp }
  return { pool with buffers }

/-- The loop of `buffer_chain_recv`. Its last result is what `readv` delivered. -/
def recvLoop (malloc : Bool) (pool : buffer_pool) (chain : buffer_chain) (delivered : List byte) :
    List Input → Outcome (buffer_pool × buffer_chain × Int × List byte)
  | [] => .running
  | input :: inputs => do
    let w ← pool.buffers.read chain.wbuf
    let wlen := buffer_wsize w
    let (pool, temp) := buffer_pool_peek malloc pool
    let t ← pool.buffers.read temp
    let tlen := buffer_wsize t
    match input with
    | .eof => return (pool, chain, 0, delivered)
    | .eagain => return (pool, chain, 1, delivered)
    | .error => return (pool, chain, -1, delivered)
    | .eintr => recvLoop malloc pool chain delivered inputs
    | .bytes first more =>
      let bytes := (first :: more).take (wlen + tlen)
      let rv := bytes.length
      if rv = 0 then return (pool, chain, 0, delivered)
      let pool ← readv pool chain.wbuf temp wlen bytes
      let chain := { chain with recv := chain.recv + rv }
      if rv ≤ wlen then
        let buffers ← pool.buffers.modify chain.wbuf fun n => { n with last := n.last + rv }
        return ({ pool with buffers }, chain, 1, delivered ++ bytes)
      else
        let pool ← join pool chain.wbuf temp wlen (rv - wlen)
        let chain := { chain with wbuf := temp }
        if rv ≠ wlen + tlen then return (pool, chain, 1, delivered ++ bytes)
        else recvLoop malloc pool chain (delivered ++ bytes) inputs

def buffer_chain_recv (malloc : Bool) (pool : buffer_pool) (chain : buffer_chain) (inputs : List Input) :
    Outcome (buffer_pool × buffer_chain × Int × List byte) :=
  recvLoop malloc pool { chain with recv := 0 } [] inputs

/-- What `writev` answers: it takes a number of bytes, or those there are if they are fewer, or none, or
fails. -/
inductive Output where
  | takes (least : Nat)
  | zero
  | eagain
  | eintr
  | error

/-- The loop that fills `vec`. -/
def gather (pool : buffer_pool) : Nat → Ptr → Outcome (List (List byte))
  | 0, _ => return []
  | _ + 1, none => return []
  | i + 1, some buf => do
    let n ← pool.buffers.read (some buf)
    let vec ← gather pool i n.next
    return unread n :: vec

/-- The loop of `buffer_chain_send`. Its last result is what `writev` accepted. -/
def sendLoop (pool : buffer_pool) (chain : buffer_chain) (accepted : List byte) :
    List Output → Outcome (buffer_pool × buffer_chain × Int × List byte)
  | [] => .running
  | output :: outputs => do
    let vec ← gather pool SM_MAX_IOV chain.rbuf
    let total := (vec.map List.length).sum
    match output with
    | .zero => return (pool, chain, 0, accepted)
    | .eagain => return (pool, chain, 1, accepted)
    | .error => return (pool, chain, -1, accepted)
    | .eintr => sendLoop pool chain accepted outputs
    | .takes least =>
      let rv := min (least + 1) total
      if rv = 0 then return (pool, chain, 0, accepted)
      let accepted := accepted ++ vec.flatten.take rv
      let (pool, chain, buf) ← shrink_chain pool { chain with sent := chain.sent + rv } rv
      let n ← pool.buffers.read buf
      if rv ≠ total ∨ n.pos = n.last then return (pool, chain, 1, accepted)
      else sendLoop pool chain accepted outputs

def buffer_chain_send (pool : buffer_pool) (chain : buffer_chain) (outputs : List Output) :
    Outcome (buffer_pool × buffer_chain × Int × List byte) :=
  sendLoop pool { chain with sent := 0 } [] outputs

end Akio.Buffer
