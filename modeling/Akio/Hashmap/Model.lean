import Akio.Lib.Outcome
import Mathlib.Data.List.Basic
import Mathlib.Algebra.Group.Nat.Defs

/-!
# The hash table of `hashmap.c`

`unsigned long` and pointers have 64 bits, and `char` is signed. A `void *` is an `Option V`, with
`none` for NULL. The table is the block that `entrys` points to, so an index past its end is a fault.
-/

namespace Akio.Hashmap

abbrev ulong := BitVec 64

/-- The text of a C string, without its final NUL. -/
structure CString where
  chars : List (BitVec 8)
  nonzero : 0 ∉ chars
deriving DecidableEq

def TRUE : Int := 1
def FALSE : Int := 0
def HASHMAP_INIT_SIZE : ulong := 1 <<< 9

structure map_entry (V : Type) where
  key : Option CString
  value : Option V
  isdel : Int
deriving DecidableEq

structure hashmap (V : Type) where
  size : ulong
  use : ulong
  compare : CString → CString → Int
  entrys : List (map_entry V)

/-- What `malloc` answers during one call, by the number of bytes asked for. No object is larger than
`PTRDIFF_MAX`. -/
structure Malloc where
  answer : ulong → Bool
  ptrdiff_max : ∀ bytes, answer bytes → bytes.toNat < 2 ^ 63

def sizeofHashmap : ulong := 32
def sizeofMapEntry : ulong := 24

variable {V : Type}

/-- The entries that fit in a block of `bytes` bytes, after `memset` to zero. -/
def zeroed (V : Type) (bytes : ulong) : List (map_entry V) :=
  List.replicate (bytes.toNat / sizeofMapEntry.toNat) { key := none, value := none, isdel := 0 }

/-- The bytes asked for a table. The product wraps around. -/
def tableBytes (size : ulong) : ulong :=
  (if size = 0 then HASHMAP_INIT_SIZE else size) * sizeofMapEntry

def hashmap_new (malloc : Malloc) (size : ulong) (compare : CString → CString → Int) :
    Option (hashmap V) :=
  if ¬ malloc.answer sizeofHashmap then none
  else if ¬ malloc.answer (tableBytes size) then none
  else some
    { size := if size = 0 then HASHMAP_INIT_SIZE else size
      use := 0
      compare
      entrys := zeroed V (tableBytes size) }

def string_hash (str : CString) : ulong :=
  let x := (str.chars.headD 0).signExtend 64 <<< 7
  let x := str.chars.foldl (fun x c => 1000003#64 * x ^^^ c.signExtend 64) x
  x ^^^ BitVec.ofNat 64 str.chars.length

/-- The `while (1)` loop of `hashmap_put`, `hashmap_get` and `hashmap_delete`, whose own lines are
`body`: `none` goes on with the next slot. -/
def probeLoop {ρ : Type} (entrys : List (map_entry V)) (size : ulong)
    (body : ulong → map_entry V → Option ρ) : Nat → ulong → ulong → Outcome ρ
  | 0, _, _ => .running
  | fuel + 1, index, perturb => do
    let index := index &&& (size - 1)
    let entry ← Outcome.ofOption entrys[index.toNat]?
    match body index entry with
    | some r => return r
    | none =>
      let perturb := perturb >>> 5
      probeLoop entrys size body fuel ((index <<< 2) + index + perturb + 1) perturb

/-- `(entry->key != NULL) && (!map->compare(entry->key, key))` -/
def hit (map : hashmap V) (entry : map_entry V) (key : CString) : Bool :=
  match entry.key with
  | some k => map.compare k key = 0
  | none => false

def putBody (map : hashmap V) (key : CString) (value : Option V) (index : ulong)
    (entry : map_entry V) : Option (hashmap V × Int) :=
  if hit map entry key then
    let entry := { entry with value, isdel := if entry.isdel = TRUE then FALSE else entry.isdel }
    some ({ map with entrys := map.entrys.set index.toNat entry }, 1)
  else if entry.key = none then
    let entry := { key := some key, value, isdel := FALSE }
    some ({ map with entrys := map.entrys.set index.toNat entry, use := map.use + 1 }, 1)
  else none

/-- The `for` loop of `_hashmap_resize`, where `put` is `hashmap_put`. -/
def rehash (put : hashmap V → CString → Option V → Outcome (hashmap V × Int)) (map : hashmap V) :
    Nat → ulong → ulong → hashmap V → Outcome (hashmap V × ulong)
  | 0, _, _, _ => .running
  | fuel + 1, i, olduse, newmap =>
    if olduse > 0 ∧ i < map.size then do
      let entry ← Outcome.ofOption map.entrys[i.toNat]?
      match entry.key with
      | some key => do
        let (newmap, r) ← put newmap key entry.value
        rehash put map fuel (i + 1) (if r ≠ 0 then olduse - 1 else olduse) newmap
      | none => rehash put map fuel (i + 1) olduse newmap
    else return (newmap, olduse)

def hashmap_resize (put : hashmap V → CString → Option V → Outcome (hashmap V × Int)) (fuel : Nat)
    (malloc : Malloc) (map : hashmap V) : Outcome (hashmap V) := do
  let newsize := map.size <<< 1
  let some newmap := hashmap_new malloc newsize map.compare | return map
  let (newmap, olduse) ← rehash put map fuel 0 map.use newmap
  return if olduse = 0 then { map with entrys := newmap.entrys, size := newsize } else map

/-- `hashmap_put` once `map` and `key` are known not to be NULL, as they are in `_hashmap_resize`. -/
def putNonnull (malloc : Malloc) : Nat → hashmap V → CString → Option V → Outcome (hashmap V × Int)
  | 0, _, _, _ => .running
  | fuel + 1, map, key, value => do
    let map ←
      if map.use * 3 ≥ map.size * 2 then hashmap_resize (putNonnull malloc fuel) fuel malloc map
      else pure map
    let hash := string_hash key
    probeLoop map.entrys map.size (putBody map key value) fuel hash hash

def hashmap_put (fuel : Nat) (malloc : Malloc) (map : Option (hashmap V)) (key : Option CString)
    (value : Option V) : Outcome (Option (hashmap V) × Int) := do
  let some map := map | return (none, 0)
  let some key := key | return (some map, 0)
  let (map, r) ← putNonnull malloc fuel map key value
  return (some map, r)

def getBody (map : hashmap V) (key : CString) (_ : ulong) (entry : map_entry V) :
    Option (Option V) :=
  if entry.key = none ∧ entry.isdel ≠ TRUE then some none
  else if hit map entry key then some entry.value
  else none

def hashmap_get (fuel : Nat) (map : Option (hashmap V)) (key : Option CString) :
    Outcome (Option V) := do
  let some map := map | return none
  let some key := key | return none
  let hash := string_hash key
  probeLoop map.entrys map.size (getBody map key) fuel hash hash

def deleteBody (map : hashmap V) (key : CString) (index : ulong) (entry : map_entry V) :
    Option (hashmap V × Option V) :=
  if entry.key = none ∧ entry.isdel = TRUE then some (map, none)
  else if hit map entry key then
    let gone := { entry with key := none, isdel := TRUE }
    some ({ map with entrys := map.entrys.set index.toNat gone }, entry.value)
  else none

def hashmap_delete (fuel : Nat) (map : Option (hashmap V)) (key : Option CString) :
    Outcome (Option (hashmap V) × Option V) := do
  let some map := map | return (none, none)
  let some key := key | return (some map, none)
  let hash := string_hash key
  let (map, value) ← probeLoop map.entrys map.size (deleteBody map key) fuel hash hash
  return (some map, value)

/-- The `for` loop of `hashmap_map`. `func` answers with the value it leaves in the entry, and `shown`
are the keys and values it was called on. -/
def mapLoop (func : CString → Option V → Option V) (size : ulong) : Nat → ulong → ulong →
    List (map_entry V) → List (CString × Option V) →
    Outcome (List (map_entry V) × List (CString × Option V))
  | 0, _, _, _, _ => .running
  | fuel + 1, i, use, entrys, shown =>
    if use > 0 ∧ i < size then do
      let entry ← Outcome.ofOption entrys[i.toNat]?
      match entry.key with
      | some key =>
        let entrys := entrys.set i.toNat { entry with value := func key entry.value }
        mapLoop func size fuel (i + 1) (use - 1) entrys (shown ++ [(key, entry.value)])
      | none => mapLoop func size fuel (i + 1) use entrys shown
    else return (entrys, shown)

def hashmap_map (fuel : Nat) (map : Option (hashmap V)) (func : Option (CString → Option V → Option V)) :
    Outcome (Option (hashmap V) × Int × List (CString × Option V)) := do
  let some map := map | return (none, 0, [])
  let some func := func | return (some map, 0, [])
  let (entrys, shown) ← mapLoop func map.size fuel 0 map.use map.entrys []
  return (some { map with entrys }, 1, shown)

end Akio.Hashmap
