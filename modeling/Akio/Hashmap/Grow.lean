import Akio.Hashmap.PutGet

/-!
# Whether growing takes effect

`_hashmap_resize` counts `use` down by one for each key it moves, and installs the new table only when the
count comes to 0. A delete leaves `use` as it is, so from then on `use` is more than there are keys and no
new table is installed again.
-/

namespace Akio.Hashmap

open Outcome OpenAddress

variable {V : Type} {malloc : Malloc} {map map' map1 : hashmap V} {k : Nat} {call : Call V}

/-- `_hashmap_resize` installs a table of twice the size with the same live entries, no deleted slot, and
`use` the number of entries. -/
def Grows (malloc : Malloc) (map : hashmap V) : Prop :=
  ∃ map1, Returns (fun fuel => hashmap_resize (putNonnull malloc fuel) fuel malloc map) map1 ∧
    map1.size.toNat = 2 * map.size.toNat ∧ map1.entrys.length = 2 * map.size.toNat ∧
    (∀ key v, LiveIn map1.table key v ↔ LiveIn map.table key v) ∧ .deleted ∉ map1.table ∧
    map1.use.toNat = map1.table.countP Slot.isLive

/-- A call that is no delete of a key in the table. -/
def Keeps (map : hashmap V) : Call V → Prop
  | .delete (some key) => ∀ v, ¬ LiveIn map.table key v
  | _ => True

/-- A table that nothing was deleted from, or the empty block that the sizes `2 ^ 61` and `2 ^ 62` get. -/
inductive Counted (map : hashmap V) : Prop where
  | whole (k : Nat) (hk : k ≤ 58) (whole : Whole map k) (clean : Clean map)
  | empty (k : Nat) (hk : k = 61 ∨ k = 62) (size : map.size.toNat = 2 ^ k) (entrys : map.entrys = [])
    (use : map.use = 0)

theorem grows_of_clean (hlawful : Lawful map) (hwhole : Whole map k) (hk : k ≤ 58) (hclean : Clean map)
    (hload : map.use * 3 ≥ map.size * 2) (hgranted : Granted malloc map) : Grows malloc map := by
  obtain ⟨map1, hreturns, -, hwhole1, -, hclean1, -, hlive⟩ :=
    hashmap_resize_clean hlawful hclean hwhole hk (hashmap_new_eq_some.mpr ⟨hgranted hload, rfl⟩)
  refine ⟨map1, hreturns, ?_, ?_, hlive, hclean1.clean, hclean1.use_eq⟩
  · rw [hwhole1.size, hwhole.size]
    omega
  · rw [hwhole1.length, hwhole.size]
    omega

theorem not_load (hk : k = 61 ∨ k = 62) (hsize : map.size.toNat = 2 ^ k) (huse : map.use = 0) :
    ¬ map.use * 3 ≥ map.size * 2 := by
  rw [huse, ge_iff_le, BitVec.le_def, BitVec.toNat_mul, hsize]
  rcases hk with rfl | rfl <;> decide

/-! ## One call -/

theorem Resized.clean (hlawful : Lawful map) (hwhole : Whole map k) (hk : k ≤ 58) (hclean : Clean map)
    (h : Resized malloc map map1) :
    ∃ k', k' ≤ 58 ∧ Whole map1 k' ∧ map1.compare = map.compare ∧ Clean map1 := by
  have hsame : map1 = map → ∃ k', k' ≤ 58 ∧ Whole map1 k' ∧ map1.compare = map.compare ∧ Clean map1 := by
    rintro rfl
    exact ⟨k, hk, hwhole, rfl, hclean⟩
  cases hnew : (hashmap_new malloc (map.size <<< 1) map.compare : Option (hashmap V)) with
  | none => exact hsame (or_self_iff.mp (h.eq_or (hashmap_resize_none hnew)))
  | some new =>
    obtain ⟨map2, hreturns, hk', hwhole2, hcompare, hclean2, -, -⟩ :=
      hashmap_resize_clean hlawful hclean hwhole hk hnew
    rcases h.eq_or hreturns with heq | rfl
    · exact hsame heq
    · exact ⟨k + 1, hk', hwhole2, hcompare, hclean2⟩

theorem Clean.use_lt (hclean : Clean map) (hwhole : Whole map k) (hk : k ≤ 58) :
    map.use.toNat + 1 < 2 ^ 64 := by
  have hle : 2 ^ k ≤ 2 ^ 58 := Nat.pow_le_pow_right (by omega) hk
  have hcount := List.countP_le_length (p := Slot.isLive) (l := map.table)
  rw [← hclean.use_eq, table_length, hwhole.length] at hcount
  omega

theorem not_put_empty (hk : k = 61 ∨ k = 62) (hsize : map.size.toNat = 2 ^ k) (huse : map.use = 0)
    (hentrys : map.entrys = []) (hresized : Resized malloc map map1) {p : Slot CString (Option V) → Bool}
    {key : CString} {n : Nat} {e : map_entry V} :
    ¬ Finds map1.entrys map1.size p key n e := by
  intro hfinds
  unfold Resized at hresized
  rw [if_neg (not_load hk hsize huse)] at hresized
  exact hfinds.entrys_ne (by rw [hresized, hentrys])

theorem Counted.step (hlawful : Lawful map) (h : Counted map) (hkeeps : Keeps map call)
    (hstep : Step map call map') : Counted map' := by
  rcases hstep.cases with rfl | ⟨malloc, key, value, -, map1, hresized, n, e, hfinds, rfl⟩ |
    ⟨key, rfl, n, e, hfinds, rfl⟩
  · exact h
  · rcases h with ⟨k, hk, hwhole, hclean⟩ | ⟨k, hk, hsize, hentrys, huse⟩
    · obtain ⟨k', hk', hwhole1, hcompare, hclean1⟩ := hresized.clean hlawful hwhole hk hclean
      have hlawful1 : Lawful map1 := hlawful.congr hcompare
      exact .whole k' hk' (hwhole1.stored _) (hclean1.stored hlawful1 hfinds (hclean1.use_lt hwhole1 hk'))
    · exact (not_put_empty hk hsize huse hentrys hresized hfinds).elim
  · have hslot := hfinds.stops.slot
    have hfound := hfinds.found
    rcases h with ⟨k, hk, hwhole, hclean⟩ | ⟨k, hk, hsize, hentrys, huse⟩
    · -- The delete stops at a deleted slot or at its key, and there is neither.
      cases hs : e.slot with
      | never =>
        rw [hs] at hfound
        cases hfound
      | deleted => exact absurd (List.mem_of_getElem? (hs ▸ hslot)) hclean.clean
      | live k' w =>
        rw [hs] at hfound hslot
        obtain rfl := (same_iff hlawful).mp hfound
        exact absurd ⟨_, hslot⟩ (hkeeps w)
    · exact absurd hentrys hfinds.entrys_ne

/-! ## Runs -/

theorem Counted.of_new {size : ulong} {compare : CString → CString → Int} (hsize : PowerOfTwo size)
    (h63 : size.toNat ≠ 2 ^ 63) (hnew : hashmap_new malloc size compare = some map) : Counted map := by
  have hclean := Clean.of_new hnew
  rcases hsize with rfl | ⟨k, hk⟩
  · exact .whole 9 (by omega) (new_whole_default hnew) hclean
  · rcases new_exponent hk hnew with hle | hge
    · exact .whole k hle (new_whole hnew hk hle) hclean
    · have hlt64 : k < 64 := (Nat.pow_lt_pow_iff_right (by omega)).mp (hk ▸ size.isLt)
      have hne : k ≠ 63 := by
        rintro rfl
        exact h63 hk
      obtain ⟨-, rfl⟩ := hashmap_new_eq_some.mp hnew
      refine .empty k (by omega) ?_ ?_ rfl
      · simp only [if_neg (ne_zero_of_toNat hk), hk]
      · rw [← List.length_eq_zero_iff]
        simp only
        rw [zeroed, List.length_replicate, wrapped_zero hk hge, Nat.zero_div]

/-- In every run without a delete of a key in the table, a put that finds the load reached and gets its
memory grows the table. -/
theorem grows_of_run {size : ulong} {compare : CString → CString → Int} (hsize : PowerOfTwo size)
    (h63 : size.toNat ≠ 2 ^ 63) (hlawful : ∀ a b, compare a b = 0 ↔ a = b) {malloc₀ : Malloc}
    {map0 : hashmap V} (hnew : hashmap_new malloc₀ size compare = some map0) {calls : List (Call V)}
    (hrun : Run (fun map call map' => Keeps map call ∧ Step map call map') map0 calls map)
    (hload : map.use * 3 ≥ map.size * 2) (hgranted : Granted malloc map) : Grows malloc map := by
  have hinv : Shape map ∧ Lawful map ∧ Counted map := by
    refine hrun.invariant (P := fun map => Shape map ∧ Lawful map ∧ Counted map) ?_ ?_
    · rintro map call map' ⟨hshape, hlawful, hcounted⟩ ⟨hkeeps, hstep⟩
      obtain ⟨hshape', hcompare⟩ := hstep.shape hshape
      exact ⟨hshape', hlawful.congr hcompare, hcounted.step hlawful hkeeps hstep⟩
    · refine ⟨new_shape hsize hnew, ?_, Counted.of_new hsize h63 hnew⟩
      obtain ⟨-, rfl⟩ := hashmap_new_eq_some.mp hnew
      exact hlawful
  obtain ⟨-, hlawful, ⟨k, hk, hwhole, hclean⟩ | ⟨k, hk, hsize, -, huse⟩⟩ := hinv
  · exact grows_of_clean hlawful hwhole hk hclean hload hgranted
  · exact absurd hload (not_load hk hsize huse)

def keyB : CString := ⟨[98], by decide⟩
def keyC : CString := ⟨[99], by decide⟩

theorem keeps_put {key : Option CString} {value : Option V} : Keeps map (.put malloc key value) := trivial

/-- Three keys in a map of size 4. -/
theorem grows_of_run_sample : ∃ map, Run Step map4 [.put mallocAll (some keyA) (some 1),
    .put mallocAll (some keyB) (some 2), .put mallocAll (some keyC) (some 3)] map ∧
      Grows mallocAll map :=
  ⟨_, Run.of_foldlM step_of_step? rfl,
    grows_of_run (Or.inr ⟨2, rfl⟩) (by decide) compareString_lawful map4_new
      (((Run.nil.snoc ⟨keeps_put, step_of_step? _ (.put mallocAll (some keyA) (some 1)) _ rfl⟩).snoc
        ⟨keeps_put, step_of_step? _ (.put mallocAll (some keyB) (some 2)) _ rfl⟩).snoc
        ⟨keeps_put, step_of_step? _ (.put mallocAll (some keyC) (some 3)) _ rfl⟩)
      (by decide) fun _ => ⟨rfl, rfl⟩⟩

/-- With one of the keys deleted and another put, `use` is 3 but there are 2 keys, and the table of size 4
stays. -/
theorem delete_stops_growth : ∃ map : hashmap Nat,
    Run Step map4 [.put mallocAll (some keyA) (some 1), .put mallocAll (some keyB) (some 2),
      .delete (some keyA), .put mallocAll (some keyC) (some 3)] map ∧
    map.use * 3 ≥ map.size * 2 ∧ Granted mallocAll map ∧
    hashmap_resize (putNonnull mallocAll 64) 64 mallocAll map = .done map ∧ ¬ Grows mallocAll map := by
  refine ⟨_, Run.of_foldlM step_of_step? rfl, by decide, fun _ => ⟨rfl, rfl⟩, rfl, ?_⟩
  rintro ⟨map1, hreturns, hsize, -⟩
  obtain rfl := (resize_steady mallocAll _).returns_unique hreturns ⟨64, rfl⟩
  exact absurd hsize (by decide)

end Akio.Hashmap
