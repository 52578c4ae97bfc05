import Akio.Hashmap.Runs

/-!
# Puts and gets as a finite map

While nothing is deleted a key is in the table with the value of its latest put, and the load keeps a
slot free. This needs a block as large as the size says, which a size of `2 ^ 61` or more does not get:
the byte count of its table wraps to 0.
-/

namespace Akio.Hashmap

open Outcome OpenAddress

variable {V : Type} {malloc : Malloc} {map map' map1 : hashmap V} {k : Nat} {value : Option V}
  {key : CString} {calls : List (Call V)}

/-- The value of the latest put under the key. -/
def latest (calls : List (Call V)) (key : CString) : Option V :=
  calls.foldl (fun r call =>
    match call with
    | .put _ (some k) value => if k = key then value else r
    | _ => r) none

/-- The allocations of `_hashmap_resize` succeed, should the put call it. -/
def Granted (malloc : Malloc) (map : hashmap V) : Prop :=
  map.use * 3 ≥ map.size * 2 →
    malloc.answer sizeofHashmap ∧ malloc.answer (tableBytes (map.size <<< 1))

/-- A put or a get of a key, with its allocations granted. -/
def PutOrGet (map : hashmap V) : Call V → Prop
  | .put malloc key _ => key ≠ none ∧ Granted malloc map
  | .get key => key ≠ none
  | .delete _ => False

def PutGetStep (map : hashmap V) (call : Call V) (map' : hashmap V) : Prop :=
  PutOrGet map call ∧ Step map call map'

/-- After every run of puts and gets the next put returns 1, and the next get the value of the latest
put. -/
def RefinesMap (V : Type) (size : ulong) : Prop :=
  ∀ (compare : CString → CString → Int) malloc (map0 map : hashmap V) calls,
    (∀ a b, compare a b = 0 ↔ a = b) → hashmap_new malloc size compare = some map0 →
    Run PutGetStep map0 calls map → calls.length + 1 < 2 ^ 60 →
    (∀ malloc key value, Granted malloc map →
      ∃ map', Returns (fun fuel => hashmap_put fuel malloc (some map) (some key) value) (some map', 1)) ∧
    ∀ key, Returns (fun fuel => hashmap_get fuel (some map) (some key)) (latest calls key)

/-! ## The invariant -/

/-- The table holds for each key the value that `f` gives. -/
def Stores (map : hashmap V) (f : CString → Option V) : Prop :=
  (∀ key v, LiveIn map.table key v → f key = v) ∧
    ∀ key, (∀ v, ¬ LiveIn map.table key v) → f key = none

/-- A table that was only put to. -/
structure Filled (map : hashmap V) (f : CString → Option V) : Prop where
  lawful : Lawful map
  clean : Clean map
  stores : Stores map f
  whole : ∃ k, 2 ≤ k ∧ k ≤ 58 ∧ Whole map k ∧ map.use.toNat < 2 ^ k

theorem has_never (hclean : Clean map) (huse : map.use.toNat < map.table.length) :
    .never ∈ map.table := by
  by_contra hno
  have hall : map.table.countP Slot.isLive = map.table.length := by
    rw [List.countP_eq_length]
    intro s hs
    cases s with
    | never => exact absurd hs hno
    | deleted => exact absurd hs hclean.clean
    | live key v => rfl
  have := hclean.use_eq
  omega

section Store

variable {n : Nat} {e : map_entry V} {f : CString → Option V} (hlawful : Lawful map)
  (hfinds : Finds map.entrys map.size (putStop (map.same key)) key n e)

include hlawful hfinds in
theorem Stores.stored (hclean : Clean map) (hstores : Stores map f) :
    Stores (stored map (path map.size key n) e key value) (fun q => if q = key then value else f q) := by
  have hmem := List.mem_of_getElem? hfinds.stops.slot
  have halone := hfinds.alone hlawful hclean.tidy (fun h => hclean.clean (h ▸ hmem))
  have hlive := liveIn_stored value hlawful hfinds halone
  refine ⟨?_, ?_⟩
  · intro q v hq
    rcases (hlive q v).mp hq with ⟨rfl, rfl⟩ | ⟨hne, hq⟩
    · exact if_pos rfl
    · simp only [if_neg hne, hstores.1 q v hq]
  · intro q hq
    have hne : q ≠ key := by
      rintro rfl
      exact hq value ((hlive q value).mpr (Or.inl ⟨rfl, rfl⟩))
    simp only [if_neg hne]
    exact hstores.2 q fun v hv => hq v ((hlive q v).mpr (Or.inr ⟨hne, hv⟩))

end Store

/-! ## One call -/

theorem stores_congr {f : CString → Option V} (hstores : Stores map f)
    (hlive : ∀ key v, LiveIn map1.table key v ↔ LiveIn map.table key v) : Stores map1 f :=
  ⟨fun key v h => hstores.1 key v ((hlive key v).mp h),
    fun key h => hstores.2 key fun v hv => h v ((hlive key v).mpr hv)⟩

theorem Filled.resized {f : CString → Option V} (h : Filled map f) (hgranted : Granted malloc map) :
    ∃ map1 k, Resized malloc map map1 ∧ 2 ≤ k ∧ k ≤ 58 ∧ Whole map1 k ∧ Lawful map1 ∧ Clean map1 ∧
      Stores map1 f ∧ map1.use.toNat + 1 < 2 ^ k := by
  obtain ⟨k, hk2, hk, hwhole, huse⟩ := h.whole
  have hle : 2 ^ k ≤ 2 ^ 58 := Nat.pow_le_pow_right (by omega) hk
  have hge : 2 ^ 2 ≤ 2 ^ k := Nat.pow_le_pow_right (by omega) hk2
  have hload := load_iff hwhole (by omega) (by omega)
  by_cases hfull : map.use * 3 ≥ map.size * 2
  · obtain ⟨map1, hreturns, hk', hwhole1, hcompare, hclean1, huse1, hlive⟩ :=
      hashmap_resize_clean h.lawful h.clean hwhole hk
        (hashmap_new_eq_some.mpr ⟨hgranted hfull, rfl⟩)
    refine ⟨map1, k + 1, by simp only [Resized, if_pos hfull]; exact hreturns, by omega, hk', hwhole1,
      h.lawful.congr hcompare, hclean1, stores_congr h.stores hlive, by rw [huse1]; omega⟩
  · refine ⟨map, k, by simp only [Resized, if_neg hfull], hk2, hk, hwhole, h.lawful, h.clean, h.stores, ?_⟩
    rw [hload] at hfull
    omega

theorem Filled.put {f : CString → Option V} (h : Filled map f) (hgranted : Granted malloc map)
    (key : CString) (value : Option V) :
    ∃ map', Returns (fun fuel => hashmap_put fuel malloc (some map) (some key) value) (some map', 1) ∧
      Filled map' (fun q => if q = key then value else f q) := by
  obtain ⟨map1, k, hresized, hk2, hk, hwhole, hlawful, hclean, hstores, huse⟩ := h.resized hgranted
  have hle : 2 ^ k ≤ 2 ^ 58 := Nat.pow_le_pow_right (by omega) hk
  obtain ⟨n, e, hfinds⟩ := exists_finds hwhole
    (has_never hclean (by rw [table_length, hwhole.length]; omega))
    (show putStop (map1.same key) .never = true from rfl) key
  refine ⟨_, hashmap_put_returns.mpr ⟨map1, hresized, n, e, hfinds, rfl, rfl⟩, hlawful.congr (stored_compare _),
    hclean.stored hlawful hfinds (by omega), hstores.stored hlawful hfinds hclean,
    k, hk2, hk, hwhole.stored _, ?_⟩
  have hbound := map1.use.isLt
  rw [stored_use]
  split
  · omega
  · rw [BitVec.toNat_add, show (1 : ulong).toNat = 1 from rfl, Nat.mod_eq_of_lt (by omega)]
    exact huse

theorem Filled.get {f : CString → Option V} (h : Filled map f) (key : CString) :
    Returns (fun fuel => hashmap_get fuel (some map) (some key)) (f key) := by
  obtain ⟨k, -, -, hwhole, huse⟩ := h.whole
  obtain ⟨n, e, hfinds⟩ := exists_finds hwhole
    (has_never h.clean (by rw [table_length, hwhole.length]; exact huse))
    (show getStop (map.same key) .never = true from rfl) key
  have hget := get_returns.mpr ⟨n, e, hfinds, rfl⟩
  rcases get_conclusive h.lawful h.clean.tidy.noGap hget with hlive | ⟨hnone, habsent⟩
  · rwa [h.stores.1 key _ hlive]
  · rwa [h.stores.2 key habsent, ← hnone]

/-! ## Whole runs -/

theorem latest_snoc (call : Call V) (key : CString) : latest (calls ++ [call]) key =
    match call with
    | .put _ (some k) value => if k = key then value else latest calls key
    | _ => latest calls key := by
  unfold latest
  rw [List.foldl_append]
  rfl

theorem hashmap_put_unique {map'' : hashmap V} {b b' : Int}
    (h : Returns (fun fuel => hashmap_put fuel malloc (some map) (some key) value) (some map', b))
    (h' : Returns (fun fuel => hashmap_put fuel malloc (some map) (some key) value) (some map'', b')) :
    map' = map'' ∧ b = b' := by
  have hsteady : Steady (fun fuel => hashmap_put fuel malloc (some map) (some key) value) := by
    intro n m r hle h
    obtain ⟨a, ha, h⟩ := bind_eq_done.mp h
    simp only [hashmap_put, putNonnull_mono hle _ _ _ _ ha, done_bind]
    exact h
  have heq := hsteady.returns_unique h h'
  simp only [Prod.mk.injEq, Option.some.injEq] at heq
  exact heq

theorem Filled.step {call : Call V} (h : Filled map (latest calls)) (hstep : PutGetStep map call map') :
    Filled map' (latest (calls ++ [call])) := by
  obtain ⟨hlegal, hstep⟩ := hstep
  rcases call with ⟨malloc, _ | key, value⟩ | key | key
  · exact absurd rfl hlegal.1
  · obtain ⟨b, hreturns⟩ := hstep
    obtain ⟨map'', hreturns', hfilled⟩ := h.put hlegal.2 key value
    obtain ⟨rfl, -⟩ := hashmap_put_unique hreturns hreturns'
    have hlatest : latest (calls ++ [.put malloc (some key) value]) =
        fun q => if q = key then value else latest calls q := by
      funext q
      rw [latest_snoc]
      simp only [eq_comm]
    rw [hlatest]
    exact hfilled
  · obtain ⟨rfl, -⟩ := hstep
    have hlatest : latest (calls ++ [.get key]) = latest calls := funext (latest_snoc _)
    rw [hlatest]
    exact h
  · exact absurd hlegal id

theorem Filled.of_new {size : ulong} {compare : CString → CString → Int} (hlawful : ∀ a b, compare a b = 0 ↔ a = b)
    (hk2 : 2 ≤ k) (hk : k ≤ 58) (hwhole : Whole map k)
    (hnew : hashmap_new malloc size compare = some map) : Filled map (latest []) := by
  have htable := new_table hnew
  have huse : map.use = 0 := by
    obtain ⟨-, rfl⟩ := hashmap_new_eq_some.mp hnew
    rfl
  have hcompare : map.compare = compare := by
    obtain ⟨-, rfl⟩ := hashmap_new_eq_some.mp hnew
    rfl
  refine ⟨?_, Clean.of_new hnew, ⟨?_, ?_⟩, k, hk2, hk, hwhole, ?_⟩
  · unfold Lawful
    rw [hcompare]
    exact hlawful
  · intro key v hlive
    exact absurd (htable ▸ hlive) not_liveIn_replicate
  · intro key _
    rfl
  · rw [huse]
    exact Nat.two_pow_pos k

theorem not_refinesMap {size : ulong} (hsize : size.toNat = 2 ^ k) (hk : 61 ≤ k) :
    ¬ RefinesMap V size := by
  intro h
  have hbytes := wrapped_zero hsize hk
  have hnew : hashmap_new mallocAll size compareString = some
      { size := if size = 0 then HASHMAP_INIT_SIZE else size, use := 0, compare := compareString,
        entrys := zeroed V (tableBytes size) } := by
    refine hashmap_new_eq_some.mpr ⟨⟨rfl, ?_⟩, rfl⟩
    simp only [mallocAll, hbytes]
    decide
  obtain ⟨-, hget⟩ := h compareString mallocAll _ _ [] compareString_lawful hnew .nil (by simp)
  obtain ⟨n, e, hfinds, -⟩ := get_returns.mp (hget ⟨[], by simp⟩)
  have hentry := hfinds.entry
  rw [zeroed, hbytes, Nat.zero_div] at hentry
  cases hentry

/-- Puts and gets are those of a finite map exactly for the initial sizes below `2 ^ 61`. -/
theorem put_get_refine_map_iff (size : ulong) (hsize : size = 0 ∨ ∃ k, 2 ≤ k ∧ size.toNat = 2 ^ k) :
    RefinesMap V size ↔ size.toNat < 2 ^ 61 := by
  constructor
  · intro h
    by_contra hge
    rcases hsize with rfl | ⟨k, -, hk⟩
    · exact hge (by decide)
    · have hk61 : 61 ≤ k := (Nat.pow_le_pow_iff_right (by omega)).mp (by omega : 2 ^ 61 ≤ 2 ^ k)
      exact not_refinesMap hk hk61 h
  · intro hlt compare malloc map0 map calls hlawful hnew hrun _
    obtain ⟨k, hk2, hk, hwhole⟩ : ∃ k, 2 ≤ k ∧ k ≤ 58 ∧ Whole map0 k := by
      rcases hsize with rfl | ⟨k, hk2, hk⟩
      · exact ⟨9, by omega, by omega, new_whole_default hnew⟩
      · have hk61 : k < 61 := (Nat.pow_lt_pow_iff_right (by omega)).mp (hk ▸ hlt)
        rcases new_exponent hk hnew with hle | hge
        · exact ⟨k, hk2, hle, new_whole hnew hk hle⟩
        · omega
    have hfilled : Filled map (latest calls) := by
      refine Run.history (P := fun calls map => Filled map (latest calls)) ?_ ?_ hrun
      · exact Filled.of_new hlawful hk2 hk hwhole hnew
      · intro calls map call map' _ h hstep
        exact h.step hstep
    refine ⟨?_, fun key => hfilled.get key⟩
    intro malloc key value hgranted
    obtain ⟨map', hreturns, -⟩ := hfilled.put hgranted key value
    exact ⟨map', hreturns⟩

theorem put_get_refine_map_sample : RefinesMap Nat 4 ∧ ¬ RefinesMap Nat (1 <<< 62) :=
  ⟨(put_get_refine_map_iff 4 (Or.inr ⟨2, by omega, rfl⟩)).mpr (by decide),
    fun h => absurd ((put_get_refine_map_iff (1 <<< 62) (Or.inr ⟨62, by omega, rfl⟩)).mp h) (by decide)⟩

/-- A new map of size `2 ^ 61` has an empty block, and its first get reads past it. -/
theorem put_get_overflow : ¬ RefinesMap Nat (1 <<< 61) ∧
    ∃ map, hashmap_new mallocAll (1 <<< 61) compareString = some map ∧
      hashmap_get 1 (some (map : hashmap Nat)) (some ⟨[97], by decide⟩) = .fault :=
  ⟨not_refinesMap (k := 61) rfl (by omega), _, rfl, rfl⟩

end Akio.Hashmap
