import Akio.Hashmap.Resize
import Akio.Lib.Run

/-!
# Runs on a map

The calls that returned, and the tables they can lead to. A size of `2 ^ 61` or more makes the byte
count of a table wrap to 0, so besides whole tables there are empty blocks, and from `2 ^ 63` on a
table of 512 entries whose size is 0.
-/

namespace Akio.Hashmap

open Outcome OpenAddress

variable {V : Type} {malloc : Malloc} {map map' map1 new : hashmap V} {k : Nat} {value r : Option V}
  {key : CString}

/-- One call on the map. A put comes with the answers of `malloc` during it. -/
inductive Call (V : Type) where
  | put (malloc : Malloc) (key : Option CString) (value : Option V)
  | get (key : Option CString)
  | delete (key : Option CString)

/-- One call that returned. -/
def Step (map : hashmap V) (call : Call V) (map' : hashmap V) : Prop :=
  match call with
  | .put malloc key value =>
    ∃ b, Returns (fun fuel => hashmap_put fuel malloc (some map) key value) (some map', b)
  | .get key => map' = map ∧ ∃ r, Returns (fun fuel => hashmap_get fuel (some map) key) r
  | .delete key => ∃ r, Returns (fun fuel => hashmap_delete fuel (some map) key) (some map', r)

/-- The initial sizes that `hashmap.h` asks for. -/
def PowerOfTwo (size : ulong) : Prop := size = 0 ∨ ∃ k, size.toNat = 2 ^ k

/-- The call led to `map` from a new table. -/
def Reachable (size : ulong) (compare : CString → CString → Int) (map : hashmap V) : Prop :=
  ∃ malloc map0 calls, hashmap_new malloc size compare = some map0 ∧ Run Step map0 calls map

/-- A `compare` and a `malloc` for runs on fixed input. -/
def compareString (a b : CString) : Int := if a = b then 0 else 1

def mallocAll : Malloc := ⟨fun bytes => bytes.toNat < 2 ^ 63, by simp⟩

theorem compareString_lawful (a b : CString) : compareString a b = 0 ↔ a = b := by
  unfold compareString
  split <;> simp [*]

/-- A new map of size 4, and two keys with one hash modulo 4. -/
def map4 : hashmap Nat := { size := 4, use := 0, compare := compareString, entrys := zeroed Nat 96 }

def keyA : CString := ⟨[97], by decide⟩
def keyE : CString := ⟨[101], by decide⟩

theorem map4_new : hashmap_new mallocAll 4 compareString = some map4 := rfl

def putA : Call Nat := .put mallocAll (some keyA) (some 1)
def putE : Call Nat := .put mallocAll (some keyE) (some 2)

/-- `map4` with both keys, the second of which had to go on to slot 2. -/
def mapAE : hashmap Nat :=
  { map4 with
    use := 2
    entrys := [⟨some keyA, some 1, FALSE⟩, ⟨none, none, 0⟩, ⟨some keyE, some 2, FALSE⟩, ⟨none, none, 0⟩] }

/-- The same map once the second key is deleted. -/
def mapA : hashmap Nat :=
  { map4 with
    use := 2
    entrys := [⟨some keyA, some 1, FALSE⟩, ⟨none, none, 0⟩, ⟨none, some 2, TRUE⟩, ⟨none, none, 0⟩] }

/-- `mapAE` reached a second time, after its first key was deleted and put again. -/
def mapAgain : hashmap Nat := { mapAE with use := 3 }

/-! ## What a call does -/

theorem hashmap_put_returns {b : Int} :
    Returns (fun fuel => hashmap_put fuel malloc (some map) (some key) value) (some map', b) ↔
      ∃ map1, Resized malloc map map1 ∧
        ∃ n e, Finds map1.entrys map1.size (putStop (map1.same key)) key n e ∧
          map' = stored map1 (path map1.size key n) e key value ∧ b = 1 := by
  rw [← putNonnull_returns]
  unfold Returns hashmap_put
  simp [bind_eq_done]

theorem Step.cases {call : Call V} (h : Step map call map') :
    map' = map ∨
    (∃ malloc key value, call = .put malloc (some key) value ∧ ∃ map1, Resized malloc map map1 ∧
      ∃ n e, Finds map1.entrys map1.size (putStop (map1.same key)) key n e ∧
        map' = stored map1 (path map1.size key n) e key value) ∨
    (∃ key, call = .delete (some key) ∧
      ∃ n e, Finds map.entrys map.size (deleteStop (map.same key)) key n e ∧
        map' = unlinked map (path map.size key n) e) := by
  rcases call with ⟨malloc, _ | key, value⟩ | key | _ | key
  · obtain ⟨b, fuel, h⟩ := h
    simp only [hashmap_put, pure_eq, done.injEq, Prod.mk.injEq, Option.some.injEq] at h
    exact Or.inl h.1.symm
  · obtain ⟨b, h⟩ := h
    obtain ⟨map1, hresized, n, e, hfinds, hmap', -⟩ := hashmap_put_returns.mp h
    exact Or.inr (Or.inl ⟨malloc, key, value, rfl, map1, hresized, n, e, hfinds, hmap'⟩)
  · exact Or.inl h.1
  · obtain ⟨r, fuel, h⟩ := h
    simp only [hashmap_delete, pure_eq, done.injEq, Prod.mk.injEq, Option.some.injEq] at h
    exact Or.inl h.1.symm
  · obtain ⟨r, h⟩ := h
    obtain ⟨n, e, hfinds, hmap', -⟩ := delete_returns.mp h
    exact Or.inr (Or.inr ⟨key, rfl, n, e, hfinds, hmap'⟩)

theorem resize_steady (malloc : Malloc) (map : hashmap V) :
    Steady (fun fuel => hashmap_resize (putNonnull malloc fuel) fuel malloc map) :=
  fun _ _ _ hle h => hashmap_resize_mono (putNonnull_mono hle) hle h

theorem Resized.eq_or (h : Resized malloc map map1)
    (hreturns : Returns (fun fuel => hashmap_resize (putNonnull malloc fuel) fuel malloc map) new) :
    map1 = map ∨ map1 = new := by
  unfold Resized at h
  split at h
  · exact Or.inr ((resize_steady malloc map).returns_unique h hreturns)
  · exact Or.inl h

/-- `Step`, computed with a bound that is enough on small tables. -/
def step? (map : hashmap V) : Call V → Option (hashmap V)
  | .put malloc key value =>
    match hashmap_put 64 malloc (some map) key value with
    | .done (map', _) => map'
    | _ => none
  | .get key =>
    match hashmap_get 64 (some map) key with
    | .done _ => some map
    | _ => none
  | .delete key =>
    match hashmap_delete 64 (some map) key with
    | .done (map', _) => map'
    | _ => none

theorem step_of_step? (map : hashmap V) (call : Call V) (map' : hashmap V)
    (h : step? map call = some map') : Step map call map' := by
  rcases call with ⟨malloc, key, value⟩ | key | key
  · simp only [step?] at h
    split at h
    · rename_i b heq
      exact ⟨b, 64, h ▸ heq⟩
    · cases h
  · simp only [step?] at h
    split at h
    · rename_i r heq
      exact ⟨(Option.some.inj h).symm, r, 64, heq⟩
    · cases h
  · simp only [step?] at h
    split at h
    · rename_i r heq
      exact ⟨r, 64, h ▸ heq⟩
    · cases h

/-! ## The tables of a run -/

/-- The tables that a run can lead to. -/
inductive Shape (map : hashmap V) : Prop where
  | whole (k : Nat) (hk : k ≤ 58) (h : Whole map k)
  | empty (k : Nat) (size : map.size.toNat = 2 ^ k) (entrys : map.entrys = []) (use : map.use = 0)
  | wrapped (size : map.size = 0) (length : map.entrys.length = 512)

theorem wrapped_bytes : (tableBytes 0).toNat = 12288 := rfl

/-- `malloc` cannot serve the sizes `2 ^ 59` and `2 ^ 60`. From `2 ^ 61` on the bytes wrap to 0. -/
theorem wrapped_zero {size : ulong} (hsize : size.toNat = 2 ^ k) (hk : 61 ≤ k) :
    (tableBytes size).toNat = 0 := by
  have hlt64 : k < 64 := (Nat.pow_lt_pow_iff_right (by omega)).mp (hsize ▸ size.isLt)
  rw [tableBytes_toNat hsize]
  obtain rfl | rfl | rfl : k = 61 ∨ k = 62 ∨ k = 63 := by omega
  all_goals rfl

theorem new_exponent {size : ulong} {compare : CString → CString → Int} (hsize : size.toNat = 2 ^ k)
    (hnew : hashmap_new malloc size compare = some map) : k ≤ 58 ∨ 61 ≤ k := by
  obtain ⟨⟨-, hanswer⟩, -⟩ := hashmap_new_eq_some.mp hnew
  have hlt := malloc.ptrdiff_max _ hanswer
  rw [tableBytes_toNat hsize] at hlt
  by_contra hc
  obtain rfl | rfl : k = 59 ∨ k = 60 := by omega
  all_goals omega

theorem new_whole_default {compare : CString → CString → Int}
    (hnew : hashmap_new malloc 0 compare = some map) : Whole map 9 := by
  have htable := new_table hnew
  obtain ⟨-, rfl⟩ := hashmap_new_eq_some.mp hnew
  refine ⟨rfl, ?_⟩
  rw [← table_length, htable, List.length_replicate, wrapped_bytes]
  rfl

theorem new_shape {size : ulong} {compare : CString → CString → Int} (hsize : PowerOfTwo size)
    (hnew : hashmap_new malloc size compare = some map) : Shape map := by
  rcases hsize with rfl | ⟨k, hk⟩
  · exact Shape.whole 9 (by omega) (new_whole_default hnew)
  · rcases new_exponent hk hnew with hle | hge
    · exact Shape.whole k hle (new_whole hnew hk hle)
    · obtain ⟨-, rfl⟩ := hashmap_new_eq_some.mp hnew
      refine Shape.empty k ?_ ?_ rfl
      · simp only [if_neg (ne_zero_of_toNat hk), hk]
      · rw [← List.length_eq_zero_iff]
        simp only
        rw [zeroed, List.length_replicate, wrapped_zero hk hge, Nat.zero_div]

theorem Shape.whole_of_length (hshape : Shape map) (hlength : map.entrys.length = map.size.toNat) :
    ∃ k ≤ 58, Whole map k := by
  rcases hshape with ⟨k, hk, hwhole⟩ | ⟨k, hsize, hentrys, -⟩ | ⟨hsize, h512⟩
  · exact ⟨k, hk, hwhole⟩
  · rw [hentrys, hsize] at hlength
    exact absurd hlength (Nat.two_pow_pos k).ne
  · rw [h512, hsize] at hlength
    cases hlength

theorem hashmap_resize_stop (h : map.use = 0 ∨ map.size = 0) (malloc : Malloc) :
    ∃ map1, Returns (fun fuel => hashmap_resize (putNonnull malloc fuel) fuel malloc map) map1 ∧
      (map1 = map ∨ ∃ new, hashmap_new malloc (map.size <<< 1) map.compare = some new ∧
        map1 = { map with entrys := new.entrys, size := map.size <<< 1 } ∧ map.use = 0) := by
  cases hnew : (hashmap_new malloc (map.size <<< 1) map.compare : Option (hashmap V)) with
  | none => exact ⟨map, hashmap_resize_none hnew, Or.inl rfl⟩
  | some new =>
    have hstop : Rehashes malloc map 0 map.use new (new, map.use) := by
      refine Rehashes.stop ?_
      rcases h with h | h <;> rw [h] <;> simp
    refine ⟨_, hashmap_resize_some hnew hstop, ?_⟩
    split
    · exact Or.inr ⟨new, rfl, rfl, ‹_›⟩
    · exact Or.inl rfl

theorem Resized.rolled (h : Resized malloc map map1) (hzero : map.size <<< 1 = 0)
    (hnew : hashmap_new malloc (map.size <<< 1) map.compare = some new)
    (hreturns : Returns (fun fuel => hashmap_resize (putNonnull malloc fuel) fuel malloc map)
      { map with entrys := new.entrys, size := map.size <<< 1 }) :
    map1 = map ∨ map1.size = 0 ∧ map1.compare = map.compare ∧ map1.table = List.replicate 512 .never := by
  rcases h.eq_or hreturns with rfl | rfl
  · exact Or.inl rfl
  · have htable := new_table hnew
    rw [hzero, wrapped_bytes] at htable
    exact Or.inr ⟨hzero, rfl, htable⟩

theorem Resized.empty (hsize : map.size.toNat = 2 ^ k) (huse : map.use = 0)
    (h : Resized malloc map map1) : map1 = map ∨ map1.size = 0 ∧ map1.compare = map.compare ∧
      map1.table = List.replicate 512 .never := by
  have hlt64 : k < 64 := (Nat.pow_lt_pow_iff_right (by omega)).mp (hsize ▸ map.size.isLt)
  obtain ⟨new, hreturns, rfl | ⟨new', hnew, rfl, -⟩⟩ := hashmap_resize_stop (Or.inl huse) malloc
  · exact Or.inl (or_self_iff.mp (h.eq_or hreturns))
  · by_cases hk : k = 63
    · have hzero : map.size <<< 1 = 0 := by
        apply BitVec.eq_of_toNat_eq
        rw [BitVec.toNat_shiftLeft, hsize, hk]
        rfl
      exact h.rolled hzero hnew hreturns
    · have hload : ¬ map.use * 3 ≥ map.size * 2 := by
        have hle : 2 ^ k ≤ 2 ^ 62 := Nat.pow_le_pow_right (by omega) (by omega)
        have hpos := Nat.two_pow_pos k
        rw [huse, ge_iff_le, BitVec.le_def, BitVec.toNat_mul, hsize,
          show (2 : ulong).toNat = 2 from rfl, Nat.mod_eq_of_lt (by omega)]
        simp
      unfold Resized at h
      rw [if_neg hload] at h
      exact Or.inl h

theorem Resized.wrapped (hsize : map.size = 0) (h : Resized malloc map map1) :
    map1 = map ∨ map1.size = 0 ∧ map1.compare = map.compare ∧
      map1.table = List.replicate 512 .never := by
  obtain ⟨new, hreturns, rfl | ⟨new', hnew, rfl, -⟩⟩ := hashmap_resize_stop (Or.inr hsize) malloc
  · exact Or.inl (or_self_iff.mp (h.eq_or hreturns))
  · have hzero : map.size <<< 1 = 0 := by
      rw [hsize]
      rfl
    exact h.rolled hzero hnew hreturns

theorem shape_of_replicate (hsize : map.size = 0) (htable : map.table = List.replicate 512 .never) :
    Shape map :=
  Shape.wrapped hsize (by rw [← table_length, htable, List.length_replicate])

theorem Resized.shape (hshape : Shape map) (h : Resized malloc map map1) :
    map1 = map ∨ Shape map1 ∧ map1.compare = map.compare ∧ .never ∈ map1.table := by
  rcases hshape with ⟨k, hk, hwhole⟩ | ⟨k, hsize, -, huse⟩ | ⟨hsize, -⟩
  · obtain ⟨new, hreturns, rfl | ⟨hk', hwhole', hcompare, hnever⟩⟩ :=
      hashmap_resize_returns hwhole hk malloc
    · exact Or.inl (or_self_iff.mp (h.eq_or hreturns))
    · rcases h.eq_or hreturns with rfl | rfl
      · exact Or.inl rfl
      · exact Or.inr ⟨Shape.whole (k + 1) hk' hwhole', hcompare, hnever⟩
  · rcases h.empty hsize huse with rfl | ⟨hsize', hcompare, htable⟩
    · exact Or.inl rfl
    · exact Or.inr ⟨shape_of_replicate hsize' htable, hcompare,
        htable ▸ List.mem_replicate.mpr ⟨by omega, rfl⟩⟩
  · rcases h.wrapped hsize with rfl | ⟨hsize', hcompare, htable⟩
    · exact Or.inl rfl
    · exact Or.inr ⟨shape_of_replicate hsize' htable, hcompare,
        htable ▸ List.mem_replicate.mpr ⟨by omega, rfl⟩⟩

theorem Resized.tidy (hshape : Shape map) (hlawful : Lawful map) (htidy : Tidy map)
    (h : Resized malloc map map1) : map1 = map ∨ Tidy map1 ∧ .deleted ∉ map1.table := by
  have hempty : map1.table = List.replicate 512 .never → Tidy map1 ∧ .deleted ∉ map1.table := by
    intro htable
    refine ⟨tidy_of_replicate htable, ?_⟩
    intro hmem
    rw [htable] at hmem
    cases List.eq_of_mem_replicate hmem
  rcases hshape with ⟨k, hk, hwhole⟩ | ⟨k, hsize, -, huse⟩ | ⟨hsize, -⟩
  · obtain ⟨new, hreturns, rfl | hnew⟩ := hashmap_resize_tidy hlawful htidy.unique hwhole hk malloc
    · exact Or.inl (or_self_iff.mp (h.eq_or hreturns))
    · rcases h.eq_or hreturns with rfl | rfl
      · exact Or.inl rfl
      · exact Or.inr hnew
  · exact (h.empty hsize huse).imp id fun h => hempty h.2.2
  · exact (h.wrapped hsize).imp id fun h => hempty h.2.2

theorem Shape.write {p : Slot CString (Option V) → Bool} {n : Nat} {e : map_entry V} (hshape : Shape map)
    (hfinds : Finds map.entrys map.size p key n e) (hsize : map'.size = map.size)
    (hlength : map'.entrys.length = map.entrys.length) : Shape map' := by
  rcases hshape with ⟨k, hk, hwhole⟩ | ⟨k, -, hentrys, -⟩ | ⟨hzero, h512⟩
  · exact Shape.whole k hk ⟨by rw [hsize, hwhole.size], by rw [hlength, hwhole.length]⟩
  · exact absurd hentrys hfinds.entrys_ne
  · exact Shape.wrapped (by rw [hsize, hzero]) (by rw [hlength, h512])

@[simp] theorem unlinked_size (i : Nat) (e : map_entry V) : (unlinked map i e).size = map.size := by
  unfold unlinked
  split <;> rfl

@[simp] theorem unlinked_compare (i : Nat) (e : map_entry V) :
    (unlinked map i e).compare = map.compare := by
  unfold unlinked
  split <;> rfl

@[simp] theorem unlinked_same (i : Nat) (e : map_entry V) (key : CString) :
    (unlinked map i e).same key = map.same key := by
  unfold hashmap.same
  rw [unlinked_compare]

@[simp] theorem unlinked_length (i : Nat) (e : map_entry V) :
    (unlinked map i e).entrys.length = map.entrys.length := by
  unfold unlinked
  split <;> simp

theorem Step.shape {call : Call V} (h : Step map call map') (hshape : Shape map) :
    Shape map' ∧ map'.compare = map.compare := by
  rcases h.cases with rfl | ⟨malloc, key, value, -, map1, hresized, n, e, hfinds, rfl⟩ |
    ⟨key, -, n, e, hfinds, rfl⟩
  · exact ⟨hshape, rfl⟩
  · obtain ⟨hshape1, hcompare⟩ : Shape map1 ∧ map1.compare = map.compare := by
      rcases hresized.shape hshape with rfl | ⟨hshape1, hcompare, -⟩
      · exact ⟨hshape, rfl⟩
      · exact ⟨hshape1, hcompare⟩
    exact ⟨hshape1.write hfinds (by simp) (by simp), by simp [hcompare]⟩
  · exact ⟨hshape.write hfinds (by simp) (by simp), by simp⟩

theorem Reachable.shape {size : ulong} {compare : CString → CString → Int} (hsize : PowerOfTwo size)
    (h : Reachable size compare map) : Shape map := by
  obtain ⟨malloc, map0, calls, hnew, hrun⟩ := h
  refine hrun.invariant (P := Shape) ?_ (new_shape hsize hnew)
  intro map call map' hshape hstep
  exact (hstep.shape hshape).1

theorem map4_reachable : Reachable 4 compareString map4 := ⟨mallocAll, map4, [], map4_new, .nil⟩

theorem mapA_reachable : Reachable 4 compareString mapA :=
  ⟨mallocAll, map4, [putA, putE, .delete (some keyE)], map4_new, Run.of_foldlM step_of_step? rfl⟩

end Akio.Hashmap
