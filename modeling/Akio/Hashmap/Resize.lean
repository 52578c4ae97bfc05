import Akio.Hashmap.Returns
import Akio.Hashmap.Table

/-!
# Growing the table
-/

namespace Akio.Hashmap

open Outcome OpenAddress

variable {V : Type} {malloc : Malloc} {map new : hashmap V} {k : Nat}

/-! ## The loop of `_hashmap_resize` -/

theorem ofNat_lt_size (hwhole : Whole map k) {i : Nat} (hi : i ≤ 2 ^ k) :
    BitVec.ofNat 64 i < map.size ↔ i < 2 ^ k := by
  have hlt := map.size.isLt
  rw [hwhole.size] at hlt
  rw [BitVec.lt_def, hwhole.size, BitVec.toNat_ofNat, Nat.mod_eq_of_lt (by omega)]

theorem toNat_ofNat_of_lt (hwhole : Whole map k) {i : Nat} (hi : i < 2 ^ k) :
    (BitVec.ofNat 64 i).toNat = i := by
  have hlt := map.size.isLt
  rw [hwhole.size] at hlt
  rw [BitVec.toNat_ofNat, Nat.mod_eq_of_lt (by omega)]

/-- What holds of the new table before slot `i` and is kept by each turn holds when the loop ends, and
the loop ends because nothing is left to count or the old table is through. -/
theorem rehash_rule (malloc : Malloc) {I : Nat → ulong → hashmap V → Prop} (hwhole : Whole map k)
    (olduse : ulong)
    (hskip : ∀ i olduse new e, map.entrys[i]? = some e → e.key = none → I i olduse new →
      I (i + 1) olduse new)
    (hmove : ∀ i olduse new e key, i < 2 ^ k → map.entrys[i]? = some e → e.key = some key →
      0 < olduse → I i olduse new → ∃ new',
        Returns (fun fuel => putNonnull malloc fuel new key e.value) (new', 1) ∧
          I (i + 1) (olduse - 1) new')
    {i : Nat} (hi : i ≤ 2 ^ k) (h : I i olduse new) :
    ∃ j new' olduse', Rehashes malloc map (BitVec.ofNat 64 i) olduse new (new', olduse') ∧
      I j olduse' new' ∧ (olduse' = 0 ∨ j = 2 ^ k) := by
  induction hrest : 2 ^ k - i generalizing i olduse new with
  | zero =>
    refine ⟨i, new, olduse, Rehashes.stop ?_, h, Or.inr (by omega)⟩
    rw [ofNat_lt_size hwhole hi]
    omega
  | succ d ih =>
    by_cases hzero : olduse = 0
    · subst hzero
      exact ⟨i, new, 0, Rehashes.stop (by simp), h, Or.inl rfl⟩
    have hpos : 0 < olduse := by bv_omega
    have hlt : i < 2 ^ k := by omega
    have hgo : olduse > 0 ∧ BitVec.ofNat 64 i < map.size := ⟨hpos, (ofNat_lt_size hwhole hi).mpr hlt⟩
    have hsucc : BitVec.ofNat 64 i + 1 = BitVec.ofNat 64 (i + 1) := (BitVec.ofNat_add ..).symm
    obtain ⟨e, he⟩ : ∃ e, map.entrys[i]? = some e :=
      ⟨_, List.getElem?_eq_getElem (by rw [hwhole.length]; exact hlt)⟩
    have he' := he
    rw [← toNat_ofNat_of_lt hwhole hlt] at he'
    rcases hkey : e.key with _ | key
    · obtain ⟨j, new', olduse', hreturns, hend⟩ :=
        ih olduse (i := i + 1) (by omega) (hskip i olduse new e he hkey h) (by omega)
      exact ⟨j, new', olduse', Rehashes.skip hgo he' hkey (hsucc ▸ hreturns), hend⟩
    · obtain ⟨new1, hput, hnew1⟩ := hmove i olduse new e key hlt he hkey hpos h
      obtain ⟨j, new', olduse', hreturns, hend⟩ := ih (olduse - 1) (i := i + 1) (by omega) hnew1 (by omega)
      exact ⟨j, new', olduse', Rehashes.move hgo he' hkey hput (hsucc ▸ hreturns), hend⟩

/-! ## A new table -/

theorem hashmap_new_eq_some {size : ulong} {compare : CString → CString → Int} {map : hashmap V} :
    hashmap_new malloc size compare = some map ↔
      (malloc.answer sizeofHashmap ∧ malloc.answer (tableBytes size)) ∧
        { size := if size = 0 then HASHMAP_INIT_SIZE else size, use := 0, compare,
          entrys := zeroed V (tableBytes size) } = map := by
  unfold hashmap_new
  by_cases h1 : malloc.answer sizeofHashmap <;> by_cases h2 : malloc.answer (tableBytes size) <;>
    simp [h1, h2]

theorem ne_zero_of_toNat {size : ulong} (hsize : size.toNat = 2 ^ k) : size ≠ 0 := by
  rintro rfl
  exact absurd hsize (Nat.two_pow_pos k).ne

theorem tableBytes_toNat {size : ulong} (hsize : size.toNat = 2 ^ k) :
    (tableBytes size).toNat = 2 ^ k * 24 % 2 ^ 64 := by
  unfold tableBytes
  rw [if_neg (ne_zero_of_toNat hsize), BitVec.toNat_mul, hsize]
  rfl

theorem tableBytes_small {size : ulong} (hsize : size.toNat = 2 ^ k) (hk : k ≤ 58) :
    (tableBytes size).toNat = 2 ^ k * 24 := by
  have hle : 2 ^ k ≤ 2 ^ 58 := Nat.pow_le_pow_right (by omega) hk
  rw [tableBytes_toNat hsize, Nat.mod_eq_of_lt (by omega)]

theorem new_table {size : ulong} {compare : CString → CString → Int} {map : hashmap V}
    (hnew : hashmap_new malloc size compare = some map) :
    map.table = List.replicate ((tableBytes size).toNat / 24) .never := by
  obtain ⟨-, rfl⟩ := hashmap_new_eq_some.mp hnew
  simp [hashmap.table, zeroed, sizeofMapEntry, map_entry.slot, TRUE]

theorem new_whole {size : ulong} {compare : CString → CString → Int} {map : hashmap V}
    (hnew : hashmap_new malloc size compare = some map) (hsize : size.toNat = 2 ^ k) (hk : k ≤ 58) :
    Whole map k := by
  have htable := new_table hnew
  obtain ⟨-, rfl⟩ := hashmap_new_eq_some.mp hnew
  refine ⟨by rw [if_neg (ne_zero_of_toNat hsize), hsize], ?_⟩
  rw [← table_length, htable, List.length_replicate, tableBytes_small hsize hk]
  omega

theorem shift_toNat {size : ulong} (hsize : size.toNat = 2 ^ k) (hk : k < 63) :
    (size <<< 1).toNat = 2 ^ (k + 1) := by
  have hle : 2 ^ (k + 1) ≤ 2 ^ 63 := Nat.pow_le_pow_right (by omega) hk
  rw [BitVec.toNat_shiftLeft, hsize, Nat.shiftLeft_eq, ← Nat.pow_succ]
  exact Nat.mod_eq_of_lt (by omega)

/-! ## One put on the new table -/

theorem load_iff (hwhole : Whole map k) (hk : k ≤ 60) (huse : map.use.toNat ≤ 2 ^ 60) :
    map.use * 3 ≥ map.size * 2 ↔ 2 * 2 ^ k ≤ 3 * map.use.toNat := by
  have hle : 2 ^ k ≤ 2 ^ 60 := Nat.pow_le_pow_right (by omega) hk
  rw [ge_iff_le, BitVec.le_def, BitVec.toNat_mul, BitVec.toNat_mul, hwhole.size,
    show (2 : ulong).toNat = 2 from rfl, show (3 : ulong).toNat = 3 from rfl,
    Nat.mod_eq_of_lt (by omega), Nat.mod_eq_of_lt (by omega)]
  omega

/-- The new table once `i` slots of the old one are through. -/
structure Moving (map : hashmap V) (k i : Nat) (new : hashmap V) : Prop where
  whole : Whole new (k + 1)
  compare : new.compare = map.compare
  use_le : new.use.toNat ≤ i
  never : 2 ^ (k + 1) ≤ new.table.countP Slot.isNever + i

theorem Moving.succ {i : Nat} (h : Moving map k i new) : Moving map k (i + 1) new :=
  ⟨h.whole, h.compare, Nat.le_succ_of_le h.use_le, Nat.le_succ_of_le h.never⟩

theorem Moving.has_never {i : Nat} (hi : i ≤ 2 ^ k) (h : Moving map k i new) : .never ∈ new.table := by
  have hnever := h.never
  have hpos := Nat.two_pow_pos k
  rw [Nat.pow_succ] at hnever
  obtain ⟨s, hs, hp⟩ := List.countP_pos_iff.mp (show 0 < new.table.countP Slot.isNever by omega)
  cases s with
  | never => exact hs
  | deleted => cases hp
  | live k v => cases hp

theorem stored_never (map : hashmap V) (i : Nat) (e : map_entry V) (key : CString) (value : Option V) :
    map.table.countP Slot.isNever ≤ (stored map i e key value).table.countP Slot.isNever + 1 := by
  rw [stored_table]
  by_cases hi : i < map.table.length
  · rw [List.countP_set hi]
    split <;> split <;> simp_all [Slot.isNever] <;> omega
  · rw [List.set_eq_of_length_le (by omega)]
    omega

theorem Moving.put (malloc : Malloc) {i : Nat} (hi : i < 2 ^ k) (hk : k ≤ 57) (h : Moving map k i new) (key : CString)
    (value : Option V) : ∃ n e, Finds new.entrys new.size (putStop (new.same key)) key n e ∧
      Returns (fun fuel => putNonnull malloc fuel new key value)
        (stored new (path new.size key n) e key value, 1) ∧
      Moving map k (i + 1) (stored new (path new.size key n) e key value) := by
  have hle : 2 ^ k ≤ 2 ^ 57 := Nat.pow_le_pow_right (by omega) hk
  have hpow : 2 ^ (k + 1) = 2 * 2 ^ k := by omega
  have huse := h.use_le
  have hload : ¬ new.use * 3 ≥ new.size * 2 := by
    rw [load_iff h.whole (by omega) (by omega)]
    omega
  obtain ⟨n, e, hfinds⟩ := exists_finds h.whole (h.has_never (Nat.le_of_lt hi))
    (show putStop (new.same key) .never = true from rfl) key
  refine ⟨n, e, hfinds, ?_, ?_⟩
  · rw [putNonnull_returns]
    exact ⟨new, by simp only [Resized, if_neg hload], n, e, hfinds, rfl, rfl⟩
  · refine ⟨h.whole.stored _, by rw [stored_compare, h.compare], ?_, ?_⟩
    · unfold stored
      split
      · exact Nat.le_succ_of_le huse
      · simp only [BitVec.toNat_add, BitVec.ofNat_eq_ofNat, BitVec.toNat_ofNat]
        omega
    · have := stored_never new (path new.size key n) e key value
      have := h.never
      omega

/-! ## The whole loop -/

theorem Moving.of_new (hwhole : Whole map k) (hk : k ≤ 57)
    (hnew : hashmap_new malloc (map.size <<< 1) map.compare = some new) : Moving map k 0 new := by
  have hsize := shift_toNat hwhole.size (by omega)
  have htable := new_table hnew
  have hnever : new.table.countP Slot.isNever = 2 ^ (k + 1) := by
    rw [htable, tableBytes_small hsize (by omega), List.countP_replicate]
    simp [Slot.isNever]
  have hwhole' := new_whole hnew hsize (by omega)
  obtain ⟨-, rfl⟩ := hashmap_new_eq_some.mp hnew
  exact ⟨hwhole', rfl, Nat.le_refl 0, by omega⟩

theorem hashmap_resize_none (hnew : (hashmap_new malloc (map.size <<< 1) map.compare : Option (hashmap V)) = none) :
    Returns (fun fuel => hashmap_resize (putNonnull malloc fuel) fuel malloc map) map :=
  ⟨0, by simp only [hashmap_resize, hnew, pure_eq]⟩

theorem hashmap_resize_some {new' : hashmap V} {olduse : ulong}
    (hnew : hashmap_new malloc (map.size <<< 1) map.compare = some new)
    (hloop : Rehashes malloc map 0 map.use new (new', olduse)) :
    Returns (fun fuel => hashmap_resize (putNonnull malloc fuel) fuel malloc map)
      (if olduse = 0 then { map with entrys := new'.entrys, size := map.size <<< 1 } else map) := by
  obtain ⟨fuel, hloop⟩ := hloop
  exact ⟨fuel, by simp only [hashmap_resize, hnew, hloop, done_bind, pure_eq]⟩

theorem new_fits (hwhole : Whole map k) (hk : k ≤ 58)
    (hnew : hashmap_new malloc (map.size <<< 1) map.compare = some new) : k ≤ 57 := by
  apply Nat.le_of_not_lt
  intro hlt
  obtain rfl : k = 58 := by omega
  obtain ⟨⟨-, hanswer⟩, -⟩ := hashmap_new_eq_some.mp hnew
  have hmax := malloc.ptrdiff_max _ hanswer
  rw [tableBytes_toNat (shift_toNat hwhole.size (by omega))] at hmax
  omega

/-- `_hashmap_resize` returns. It leaves the table as it was, or one of twice the size that is not
full. -/
theorem hashmap_resize_returns (hwhole : Whole map k) (hk : k ≤ 58) (malloc : Malloc) :
    ∃ map1, Returns (fun fuel => hashmap_resize (putNonnull malloc fuel) fuel malloc map) map1 ∧
      (map1 = map ∨ k + 1 ≤ 58 ∧ Whole map1 (k + 1) ∧ map1.compare = map.compare ∧
        .never ∈ map1.table) := by
  cases hnew : (hashmap_new malloc (map.size <<< 1) map.compare : Option (hashmap V)) with
  | none => exact ⟨map, hashmap_resize_none hnew, Or.inl rfl⟩
  | some new =>
    have hk : k ≤ 57 := new_fits hwhole hk hnew
    obtain ⟨j, new', olduse, hloop, ⟨hmoving, hj⟩, -⟩ := rehash_rule malloc
      (I := fun i _ new => Moving map k i new ∧ i ≤ 2 ^ k) hwhole map.use
      (by
        intro i olduse new e he _ h
        have := (List.getElem?_eq_some_iff.mp he).1
        rw [hwhole.length] at this
        exact ⟨h.1.succ, this⟩)
      (by
        intro i olduse new e key hi _ _ _ h
        obtain ⟨n, e', -, hreturns, hmoving⟩ := h.1.put malloc hi hk key e.value
        exact ⟨_, hreturns, hmoving, hi⟩)
      (Nat.zero_le _) ⟨Moving.of_new hwhole hk hnew, Nat.zero_le _⟩
    refine ⟨_, hashmap_resize_some hnew hloop, ?_⟩
    split
    · have hnever := hmoving.has_never hj
      exact Or.inr ⟨by omega, ⟨shift_toNat hwhole.size (by omega), hmoving.whole.length⟩, rfl, hnever⟩
    · exact Or.inl rfl

/-! ## Tables without deleted slots -/

/-- The count `use` of a table without deleted slots, and what that makes of a table. -/
structure Clean (map : hashmap V) : Prop where
  tidy : Tidy map
  clean : .deleted ∉ map.table
  use_eq : map.use.toNat = map.table.countP Slot.isLive

section Store

variable {key : CString} {value : Option V} {n : Nat} {e : map_entry V} (hlawful : Lawful map)
  (hfinds : Finds map.entrys map.size (putStop (map.same key)) key n e)

theorem stored_use (i : Nat) :
    (stored map i e key value).use = if e.slot.isLive then map.use else map.use + 1 := by
  unfold stored
  split <;> rfl

include hlawful hfinds in
theorem stored_count : (stored map (path map.size key n) e key value).table.countP Slot.isLive =
    if e.slot.isLive then map.table.countP Slot.isLive else map.table.countP Slot.isLive + 1 := by
  have hslot := hfinds.stops.slot
  have hget := (List.getElem?_eq_some_iff.mp hslot).2
  have hnew : (Slot.live key value).isLive = true := rfl
  rw [stored_table_eq value hlawful hfinds, List.countP_set hfinds.lt_length, hget, if_pos hnew]
  split
  · have := List.countP_pos_iff.mpr ⟨_, List.mem_of_getElem? hslot, ‹_›⟩
    omega
  · rfl

include hlawful hfinds in
theorem Clean.stored (hclean : Clean map) (huse : map.use.toNat + 1 < 2 ^ 64) :
    Clean (stored map (path map.size key n) e key value) := by
  have hmem := List.mem_of_getElem? hfinds.stops.slot
  have halone := hfinds.alone hlawful hclean.tidy (fun h => hclean.clean (h ▸ hmem))
  refine ⟨tidy_stored value hlawful hclean.tidy hfinds halone, ?_, ?_⟩
  · rw [stored_table_eq value hlawful hfinds]
    intro hdel
    rcases List.mem_or_eq_of_mem_set hdel with hdel | heq
    · exact hclean.clean hdel
    · cases heq
  · rw [stored_use, stored_count hlawful hfinds, ← hclean.use_eq]
    split
    · rfl
    · rw [BitVec.toNat_add, show (1 : ulong).toNat = 1 from rfl, Nat.mod_eq_of_lt huse]

end Store

/-! ## What the new table holds -/

/-- The new table once `i` slots of a table without double keys are through. -/
structure Copied (map : hashmap V) (k i : Nat) (olduse : ulong) (new : hashmap V) : Prop
    extends Moving map k i new where
  le : i ≤ 2 ^ k
  tidy : Tidy new
  clean : .deleted ∉ new.table
  content : ∀ key v, LiveIn new.table key v ↔ ∃ j < i, map.table[j]? = some (.live key v)
  count : new.table.countP Slot.isLive = (map.table.take i).countP Slot.isLive
  use_eq : new.use.toNat = new.table.countP Slot.isLive
  olduse_eq : olduse + new.use = map.use

variable {i : Nat} {olduse : ulong}

theorem countP_take_succ {s : Slot CString (Option V)} (hs : map.table[i]? = some s) :
    (map.table.take (i + 1)).countP Slot.isLive =
      (map.table.take i).countP Slot.isLive + if s.isLive then 1 else 0 := by
  rw [List.take_add_one, hs, List.countP_append]
  simp [List.countP_cons]

theorem Copied.skip {e : map_entry V} (h : Copied map k i olduse new) (hlt : i < 2 ^ k)
    (he : map.entrys[i]? = some e) (hkey : e.key = none) : Copied map k (i + 1) olduse new := by
  have hs : map.table[i]? = some e.slot := by simp [hashmap.table, he]
  have hdead := not_live_of_key hkey
  refine ⟨h.toMoving.succ, hlt, h.tidy, h.clean, ?_, ?_, h.use_eq, h.olduse_eq⟩
  · intro key v
    rw [h.content]
    constructor
    · rintro ⟨j, hj, hlive⟩
      exact ⟨j, by omega, hlive⟩
    · rintro ⟨j, hj, hlive⟩
      refine ⟨j, Nat.lt_of_le_of_ne (by omega) ?_, hlive⟩
      rintro rfl
      rw [Option.some.inj (hs.symm.trans hlive)] at hdead
      cases hdead
  · rw [countP_take_succ hs, hdead, h.count]
    simp

theorem Copied.move {e : map_entry V} {key : CString} (hlawful : Lawful map) (hunique : Unique map.table)
    (hk : k ≤ 57) (h : Copied map k i olduse new) (hlt : i < 2 ^ k) (he : map.entrys[i]? = some e)
    (hkey : e.key = some key) : ∃ new',
      Returns (fun fuel => putNonnull malloc fuel new key e.value) (new', 1) ∧
        Copied map k (i + 1) (olduse - 1) new' := by
  have hs : map.table[i]? = some (.live key e.value) := by
    simp [hashmap.table, he, map_entry.slot, hkey]
  have hfresh : ∀ v, ¬ LiveIn new.table key v := by
    intro v hlive
    obtain ⟨j, hj, hj'⟩ := (h.content key v).mp hlive
    exact absurd (hunique _ _ _ _ _ hj' hs) (by omega)
  obtain ⟨n, e', hfinds, hreturns, hmoving⟩ := h.toMoving.put malloc hlt hk key e.value
  refine ⟨_, hreturns, ?_⟩
  have hnew : Lawful new := hlawful.congr h.compare
  have hslot := hfinds.stops.slot
  have hdead : e'.slot.isLive = false := by
    rcases putStop_slot hnew hfinds.found with hnever | hdel | ⟨v, hlive⟩
    · rw [hnever]
      rfl
    · rw [hdel]
      rfl
    · exact absurd ⟨_, hlive ▸ hslot⟩ (hfresh v)
  have halone : Alone new key (path new.size key n) := fun j w hj => absurd ⟨j, hj⟩ (hfresh w)
  have hcount : (stored new (path new.size key n) e' key e.value).table.countP Slot.isLive =
      new.table.countP Slot.isLive + 1 := by
    rw [stored_count hnew hfinds, hdead]
    rfl
  have huse : (stored new (path new.size key n) e' key e.value).use = new.use + 1 := by
    rw [stored_use, hdead]
    rfl
  have hle : 2 ^ k ≤ 2 ^ 57 := Nat.pow_le_pow_right (by omega) hk
  have hbound := h.use_le
  have hold : Clean new := ⟨h.tidy, h.clean, h.use_eq⟩
  have hclean : Clean (stored new (path new.size key n) e' key e.value) := hold.stored hnew hfinds (by omega)
  refine ⟨hmoving, hlt, hclean.tidy, hclean.clean, ?_, ?_, hclean.use_eq, ?_⟩
  · intro key' v
    rw [liveIn_stored _ hnew hfinds halone, h.content]
    constructor
    · rintro (⟨rfl, rfl⟩ | ⟨-, j, hj, hlive⟩)
      · exact ⟨i, by omega, hs⟩
      · exact ⟨j, by omega, hlive⟩
    · rintro ⟨j, hj, hlive⟩
      by_cases hji : j = i
      · subst hji
        have heq := Option.some.inj (hs.symm.trans hlive)
        simp only [Slot.live.injEq] at heq
        exact Or.inl ⟨heq.1.symm, heq.2.symm⟩
      · refine Or.inr ⟨?_, j, by omega, hlive⟩
        rintro rfl
        exact hji (hunique _ _ _ _ _ hlive hs)
  · rw [hcount, countP_take_succ hs, h.count]
    simp [Slot.isLive]
  · rw [huse, ← h.olduse_eq]
    bv_omega

theorem not_liveIn_replicate {n : Nat} {key : CString} {v : Option V} :
    ¬ LiveIn (List.replicate n Slot.never) key v := by
  rintro ⟨i, hi⟩
  cases List.eq_of_mem_replicate (List.mem_of_getElem? hi)

theorem tidy_of_replicate {n : Nat} (h : map.table = List.replicate n .never) : Tidy map := by
  refine ⟨?_, ?_⟩
  · intro i key v hi
    exact absurd ⟨i, h ▸ hi⟩ not_liveIn_replicate
  · intro i j key v w hi
    exact absurd ⟨i, h ▸ hi⟩ not_liveIn_replicate

theorem Copied.of_new (hwhole : Whole map k) (hk : k ≤ 57)
    (hnew : hashmap_new malloc (map.size <<< 1) map.compare = some new) : Copied map k 0 map.use new := by
  have htable := new_table hnew
  have huse : new.use = 0 := by
    obtain ⟨-, rfl⟩ := hashmap_new_eq_some.mp hnew
    rfl
  refine ⟨Moving.of_new hwhole hk hnew, Nat.zero_le _, tidy_of_replicate htable, ?_, ?_, ?_, ?_, ?_⟩
  · intro hmem
    rw [htable] at hmem
    cases List.eq_of_mem_replicate hmem
  · intro key v
    constructor
    · intro hlive
      exact absurd (htable ▸ hlive) not_liveIn_replicate
    · rintro ⟨j, hj, -⟩
      omega
  · rw [htable, List.countP_replicate]
    simp [Slot.isLive]
  · rw [huse, htable, List.countP_replicate]
    simp [Slot.isLive]
  · rw [huse]
    simp

theorem copied_loop (hlawful : Lawful map) (hunique : Unique map.table) (hwhole : Whole map k)
    (hk : k ≤ 57) (hnew : hashmap_new malloc (map.size <<< 1) map.compare = some new) :
    ∃ j new' olduse, Rehashes malloc map 0 map.use new (new', olduse) ∧ Copied map k j olduse new' ∧
      (olduse = 0 ∨ j = 2 ^ k) := by
  refine rehash_rule malloc (I := Copied map k) hwhole map.use ?_ ?_ (Nat.zero_le _) (Copied.of_new hwhole hk hnew)
  · intro i olduse new e he hkey h
    have hlt := (List.getElem?_eq_some_iff.mp he).1
    rw [hwhole.length] at hlt
    exact h.skip hlt he hkey
  · intro i olduse new e key hlt he hkey _ h
    exact h.move hlawful hunique hk hlt he hkey

theorem hashmap_resize_tidy (hlawful : Lawful map) (hunique : Unique map.table) (hwhole : Whole map k)
    (hk : k ≤ 58) (malloc : Malloc) :
    ∃ map1, Returns (fun fuel => hashmap_resize (putNonnull malloc fuel) fuel malloc map) map1 ∧
      (map1 = map ∨ Tidy map1 ∧ .deleted ∉ map1.table) := by
  cases hnew : (hashmap_new malloc (map.size <<< 1) map.compare : Option (hashmap V)) with
  | none => exact ⟨map, hashmap_resize_none hnew, Or.inl rfl⟩
  | some new =>
    have hk : k ≤ 57 := new_fits hwhole hk hnew
    obtain ⟨j, new', olduse, hloop, hcopied, -⟩ := copied_loop hlawful hunique hwhole hk hnew
    refine ⟨_, hashmap_resize_some hnew hloop, ?_⟩
    split
    · have hsize := shift_toNat hwhole.size (by omega)
      have heq : new'.size = map.size <<< 1 := BitVec.eq_of_toNat_eq (hcopied.whole.size.trans hsize.symm)
      exact Or.inr ⟨⟨heq ▸ hcopied.tidy.noGap, hcopied.tidy.unique⟩, hcopied.clean⟩
    · exact Or.inl rfl

theorem Clean.of_new {size : ulong} {compare : CString → CString → Int}
    (hnew : hashmap_new malloc size compare = some map) : Clean map := by
  have htable := new_table hnew
  refine ⟨tidy_of_replicate htable, ?_, ?_⟩
  · intro hmem
    rw [htable] at hmem
    cases List.eq_of_mem_replicate hmem
  · obtain ⟨-, rfl⟩ := hashmap_new_eq_some.mp hnew
    rw [htable, List.countP_replicate]
    rfl

theorem hashmap_resize_clean (hlawful : Lawful map) (hclean : Clean map) (hwhole : Whole map k)
    (hk : k ≤ 58) (hnew : hashmap_new malloc (map.size <<< 1) map.compare = some new) :
    ∃ map1, Returns (fun fuel => hashmap_resize (putNonnull malloc fuel) fuel malloc map) map1 ∧
      k + 1 ≤ 58 ∧ Whole map1 (k + 1) ∧ map1.compare = map.compare ∧ Clean map1 ∧
      map1.use = map.use ∧ ∀ key v, LiveIn map1.table key v ↔ LiveIn map.table key v := by
  have hk : k ≤ 57 := new_fits hwhole hk hnew
  obtain ⟨j, new', olduse, hloop, hcopied, hend⟩ :=
    copied_loop hlawful hclean.tidy.unique hwhole hk hnew
  have hsplit : (map.table.take j).countP Slot.isLive + (map.table.drop j).countP Slot.isLive =
      map.use.toNat := by
    rw [hclean.use_eq, ← List.countP_append, List.take_append_drop]
  have huse : new'.use.toNat = (map.table.take j).countP Slot.isLive := by
    rw [hcopied.use_eq, hcopied.count]
  have holduse := hcopied.olduse_eq
  -- Nothing is left to count exactly when no live slot is left.
  have hrest : olduse = 0 ∧ (map.table.drop j).countP Slot.isLive = 0 := by
    rcases hend with rfl | rfl
    · refine ⟨rfl, ?_⟩
      simp only [BitVec.ofNat_eq_ofNat, BitVec.zero_add] at holduse
      rw [holduse] at huse
      omega
    · have hdrop : map.table.drop (2 ^ k) = [] :=
        List.drop_eq_nil_of_le (by rw [table_length, hwhole.length])
      rw [hdrop] at hsplit
      have heq : new'.use = map.use := by
        apply BitVec.eq_of_toNat_eq
        rw [huse, ← hsplit]
        rfl
      refine ⟨?_, by rw [hdrop]; rfl⟩
      rw [heq] at holduse
      bv_omega
  obtain ⟨rfl, hnone⟩ := hrest
  have hsize := shift_toNat hwhole.size (by omega)
  have hsize' : new'.size = map.size <<< 1 := BitVec.eq_of_toNat_eq (hcopied.whole.size.trans hsize.symm)
  simp only [BitVec.ofNat_eq_ofNat, BitVec.zero_add] at holduse
  refine ⟨_, hashmap_resize_some hnew hloop, by omega, ⟨hsize, hcopied.whole.length⟩, rfl,
    ⟨⟨?_, hcopied.tidy.unique⟩, hcopied.clean, ?_⟩, rfl, ?_⟩
  · exact hsize' ▸ hcopied.tidy.noGap
  · show map.use.toNat = new'.table.countP Slot.isLive
    rw [← hcopied.use_eq, holduse]
  · intro key v
    refine (hcopied.content key v).trans ?_
    constructor
    · rintro ⟨i, -, hi⟩
      exact ⟨i, hi⟩
    · rintro ⟨i, hi⟩
      refine ⟨i, ?_, hi⟩
      by_contra hij
      have hmem : Slot.live key v ∈ map.table.drop j := by
        refine List.mem_of_getElem? (i := i - j) ?_
        rw [List.getElem?_drop, Nat.add_sub_cancel' (by omega), hi]
      exact List.countP_eq_zero.mp hnone _ hmem rfl

end Akio.Hashmap
