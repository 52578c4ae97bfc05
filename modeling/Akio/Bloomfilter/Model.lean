import Akio.Bitset.Model

/-!
# The Bloom filter of `bloomfilter.c`

A key is given by its text without the final NUL. `uint32_t` is read from memory with the low byte first.
The error rate is left out: only `bloomfilter_new` reads it.
-/

namespace Akio.Bloomfilter

open Bitset

abbrev uint32_t := BitVec 32

structure bloomfilter where
  k : Int
  capacity : ulong
  nbits : ulong
  count : ulong
  set : Option bitset

/-! ## The hash -/

/-- `*(uint32_t *)data` -/
def load (d0 d1 d2 d3 : uchar) : uint32_t :=
  d0.setWidth 32 ||| d1.setWidth 32 <<< 8 ||| d2.setWidth 32 <<< 16 ||| d3.setWidth 32 <<< 24

def m : uint32_t := 0x5bd1e995
def r : Nat := 24

/-- The `while` loop: four bytes at a time. The bytes that are left come with the hash. -/
def murmurLoop (h : uint32_t) : List uchar → uint32_t × List uchar
  | d0 :: d1 :: d2 :: d3 :: data =>
    let k := load d0 d1 d2 d3 * m
    let k := (k ^^^ k >>> r) * m
    murmurLoop (h * m ^^^ k) data
  | data => (h, data)

/-- The `switch` on the number of bytes left, with its cases falling through. -/
def murmurTail (h : uint32_t) : List uchar → uint32_t
  | [d0] => (h ^^^ d0.setWidth 32) * m
  | [d0, d1] => (h ^^^ d1.setWidth 32 <<< 8 ^^^ d0.setWidth 32) * m
  | [d0, d1, d2] => (h ^^^ d2.setWidth 32 <<< 16 ^^^ d1.setWidth 32 <<< 8 ^^^ d0.setWidth 32) * m
  | _ => h

def murmurhash2 (key : List uchar) (seed : uint32_t) : uint32_t :=
  let h := seed ^^^ BitVec.ofNat 32 key.length
  let (h, data) := murmurLoop h key
  let h := murmurTail h data
  let h := (h ^^^ h >>> 13) * m
  h ^^^ h >>> 15

def bloom_hash (data : List uchar) : uint32_t := murmurhash2 data 0xbc9f1d34

/-- `(h >> 17) | (h << 15)` -/
def deltaOf (h : uint32_t) : uint32_t := h >>> 17 ||| h <<< 15

/-! ## Adding and checking -/

/-- `bitpos = h % nbits`. The remainder by 0 is undefined. -/
def bitpos (h : uint32_t) (nbits : ulong) : Outcome uint32_t :=
  if nbits = 0#64 then .fault else .done ((h.setWidth 64 % nbits).setWidth 32)

/-- The `for` loop of `bloomfilter_add`, with the steps that are left. -/
def addLoop (nbits : ulong) (delta : uint32_t) :
    Nat → Option bitset → uint32_t → Outcome (Option bitset)
  | 0, set, _ => return set
  | k + 1, set, h => do
    let pos ← bitpos h nbits
    let (set, _) ← bitset_set set (pos.setWidth 64) 1#32
    addLoop nbits delta k set (h + delta)

def bloomfilter_add (filter : Option bloomfilter) (key : Option (List uchar)) :
    Outcome (Option bloomfilter × int) := do
  let some filter := filter | return (none, 0#32)
  let some key := key | return (some filter, 0#32)
  if filter.count > filter.capacity then return (some filter, 0#32)
  let h := bloom_hash key
  let set ← addLoop filter.nbits (deltaOf h) filter.k.toNat filter.set h
  return (some { filter with set, count := filter.count + 1#64 }, 1#32)

/-- The `for` loop of `bloomfilter_check`. -/
def checkLoop (nbits : ulong) (delta : uint32_t) (set : Option bitset) : Nat → uint32_t → Outcome int
  | 0, _ => return 1#32
  | k + 1, h => do
    let pos ← bitpos h nbits
    let b ← bitset_get set (pos.setWidth 64)
    if b ≠ 1#32 then return 0#32
    checkLoop nbits delta set k (h + delta)

def bloomfilter_check (filter : Option bloomfilter) (key : Option (List uchar)) : Outcome int := do
  let some filter := filter | return 0#32
  let some key := key | return 0#32
  let h := bloom_hash key
  checkLoop filter.nbits (deltaOf h) filter.set filter.k.toNat h

end Akio.Bloomfilter
