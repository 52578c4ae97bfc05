import Akio.Lib.Outcome

/-!
# The bit set of `bitset.c`

`unsigned long` has 64 bits and `int` has 32. `bytes` is the block that the set points to, so an index past
its end is a fault.
-/

namespace Akio.Bitset

abbrev ulong := BitVec 64
abbrev int := BitVec 32
abbrev uchar := BitVec 8

structure bitset where
  length : ulong
  bytes : List uchar
deriving DecidableEq

/-- `malloc_set` and `malloc_bytes` say whether the two allocations succeed. -/
def bitset_new (malloc_set malloc_bytes : Bool) (length : ulong) : Option bitset :=
  if ¬ malloc_set then none
  else
    let nbyte := (length + 7#64) / 8#64
    if ¬ malloc_bytes then none
    else some { length, bytes := List.replicate nbyte.toNat 0#8 }

/-- `set->bytes[n/8]` -/
def byteAt (set : bitset) (n : ulong) : Outcome uchar := Outcome.ofOption set.bytes[(n / 8#64).toNat]?

/-- `byte >> (n % 8) & 1`, where `byte` is promoted to `int`. -/
def bitOf (byte : uchar) (n : ulong) : int := (byte.setWidth 32 >>> (n % 8#64).toNat) &&& 1#32

/-- The mask `1 << (n % 8)`. -/
def mask (n : ulong) : int := 1#32 <<< (n % 8#64).toNat

/-- `byte |= mask` or `byte &= ~mask`, back in a byte. -/
def putBit (byte : uchar) (n : ulong) (bit : int) : uchar :=
  if bit = 1#32 then (byte.setWidth 32 ||| mask n).setWidth 8
  else (byte.setWidth 32 &&& ~~~mask n).setWidth 8

def bitset_get (set : Option bitset) (n : ulong) : Outcome int := do
  let some set := set | return 0#32
  if n > set.length then return 0#32
  let byte ← byteAt set n
  return bitOf byte n

def bitset_set (set : Option bitset) (n : ulong) (bit : int) : Outcome (Option bitset × int) := do
  let some set := set | return (none, 0#32)
  if n > set.length ∨ bit ≠ 0#32 ∧ bit ≠ 1#32 then return (some set, 0#32)
  let byte ← byteAt set n
  let prev := bitOf byte n
  return (some { set with bytes := set.bytes.set (n / 8#64).toNat (putBit byte n bit) }, prev)

/-- `memset(bytes, c, nbytes)` on a block. -/
def memset (bytes : List uchar) (c : uchar) (nbytes : ulong) : Outcome (List uchar) :=
  if nbytes.toNat ≤ bytes.length then
    .done (List.replicate nbytes.toNat c ++ bytes.drop nbytes.toNat)
  else .fault

def lsbmask : List uchar := [0x7F#8, 0x3F#8, 0x1F#8, 0x0F#8, 0x07#8, 0x03#8, 0x01#8]

def bitset_setall (set : Option bitset) : Outcome (Option bitset) := do
  let some set := set | return none
  let nbytes := (set.length + 7#64) / 8#64
  let bytes ← memset set.bytes 0xFF#8 nbytes
  let mbits : int := (nbytes * 8#64 - set.length).setWidth 32
  if mbits = 0#32 then return some { set with bytes }
  let last := (nbytes - 1#64).toNat
  let byte ← Outcome.ofOption bytes[last]?
  let m ← Outcome.ofOption lsbmask[(mbits - 1#32).toNat]?
  return some { set with bytes := bytes.set last (byte &&& m) }

def bitset_clearall (set : Option bitset) : Outcome (Option bitset) := do
  let some set := set | return none
  let nbytes := (set.length + 7#64) / 8#64
  let bytes ← memset set.bytes 0#8 nbytes
  return some { set with bytes }

/-- The bits that are set in a nibble, a `char` each. -/
def count : List uchar := [0#8, 1#8, 1#8, 2#8, 1#8, 2#8, 2#8, 3#8, 1#8, 2#8, 2#8, 3#8, 2#8, 3#8, 3#8, 4#8]

/-- `count[c&0xF] + count[c>>4]`, an `int`. -/
def countByte (c : uchar) : Outcome int := do
  let low ← Outcome.ofOption count[(c &&& 0xF#8).toNat]?
  let high ← Outcome.ofOption count[(c >>> 4).toNat]?
  return low.signExtend 32 + high.signExtend 32

/-- The loop over the bytes, whose indexes are still to come. -/
def countBytes (set : bitset) (length : ulong) : List Nat → Outcome ulong
  | [] => return length
  | i :: is => do
    let c ← Outcome.ofOption set.bytes[i]?
    let n ← countByte c
    countBytes set (length + n.signExtend 64) is

/-- `i` goes from 0 to `nbytes`. -/
def bitset_count (set : Option bitset) : Outcome ulong := do
  let some set := set | return 0#64
  let nbytes := (set.length + 7#64) / 8#64
  countBytes set 0#64 (List.range (nbytes.toNat + 1))

end Akio.Bitset
