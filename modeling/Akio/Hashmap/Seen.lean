import Akio.Hashmap.Tally

/-!
# Puts as gets see them

A put writes one slot of the table. A get of its key ends there, and a get of another key ends where it
did, or goes on past the slot to find that its key is nowhere.
-/

namespace Akio.Hashmap

open Outcome OpenAddress

variable {V : Type} {malloc : Malloc} {map map' map1 : hashmap V} {key k' : CString}
  {value x y : Option V} {n : Nat} {e : map_entry V}

/-! ## The slot written -/

section Stored

variable (hlawful : Lawful map) (hfinds : Finds map.entrys map.size (putStop (map.same key)) key n e)

include hlawful hfinds in
theorem stored_getElem? (value : Option V) (i : Nat) : (stored map (path map.size key n) e key value).table[i]? =
    if path map.size key n = i then some (.live key value) else map.table[i]? := by
  rw [stored_table_eq value hlawful hfinds, List.getElem?_set, if_pos hfinds.lt_length]

@[simp] theorem stored_same (i : Nat) (q : CString) :
    (stored map i e key value).same q = map.same q := by
  unfold hashmap.same
  rw [stored_compare]

include hlawful hfinds in
theorem get_stored_self : Returns
    (fun fuel => hashmap_get fuel (some (stored map (path map.size key n) e key value)) (some key))
    value := by
  have hget := stored_getElem? hlawful hfinds value
  rw [get_returns_stops, stored_same, stored_size]
  refine ⟨n, .live key value, ⟨?_, ?_, (same_iff hlawful).mpr rfl⟩, rfl⟩
  · intro j hj
    obtain ⟨s, hs, hno⟩ := hfinds.stops.passes j hj
    have hne : path map.size key n ≠ path map.size key j := by
      intro heq
      rw [← heq, hfinds.stops.slot] at hs
      rw [← Option.some.inj hs, hfinds.found] at hno
      cases hno
    refine ⟨s, by rw [hget, if_neg hne, hs], ?_⟩
    cases s with
    | never => cases hno
    | deleted => cases hno
    | live k v => exact hno
  · rw [hget, if_pos rfl]

include hlawful hfinds in
theorem stored_other (value : Option V) (hne : k' ≠ key) {i : Nat} {w : Option V} :
    (stored map (path map.size key n) e key value).table[i]? = some (.live k' w) ↔
      map.table[i]? = some (.live k' w) := by
  rw [stored_getElem? hlawful hfinds]
  by_cases heq : path map.size key n = i
  · rw [if_pos heq, ← heq, hfinds.stops.slot]
    rcases putStop_slot hlawful hfinds.found with h | h | ⟨v, h⟩ <;> rw [h] <;> simp [hne.symm]
  · rw [if_neg heq]

include hlawful hfinds in
theorem get_stored_other (hnoGap : NoGap (path map.size) map.table) (hne : k' ≠ key)
    (hx : Returns (fun fuel => hashmap_get fuel (some map) (some k')) x)
    (hy : Returns (fun fuel => hashmap_get fuel
      (some (stored map (path map.size key n) e key value)) (some k')) y) : y = x := by
  have hlawful' : Lawful (stored map (path map.size key n) e key value) :=
    hlawful.congr (stored_compare _)
  have hnoGap' : NoGap (path (stored map (path map.size key n) e key value).size)
      (stored map (path map.size key n) e key value).table := by
    rw [stored_size]
    exact noGap_stored value hlawful hnoGap hfinds
  have hother := fun i w => stored_other hlawful hfinds value hne (i := i) (w := w)
  obtain ⟨m, s, hstops, rfl⟩ := get_returns_stops.mp hx
  have hslot := hstops.slot
  have hfound := hstops.found
  cases s with
  | never =>
    -- The slot may be the one written. The get goes on then, but its key is in no slot.
    have habsent := absent_of_stops hlawful hnoGap hstops
    rcases get_conclusive hlawful' hnoGap' hy with ⟨i, hi⟩ | ⟨hnone, -⟩
    · exact absurd ⟨i, (hother i y).mp hi⟩ (habsent y)
    · exact hnone
  | deleted => cases hfound
  | live k w =>
    obtain rfl := (same_iff hlawful).mp hfound
    have hstops' : Stops (stored map (path map.size key n) e key value).table (getStop (map.same k))
        (path map.size k) m (.live k w) := by
      refine ⟨?_, (hother _ w).mpr hslot, hfound⟩
      intro j hj
      rw [stored_getElem? hlawful hfinds]
      split
      · refine ⟨_, rfl, ?_⟩
        rw [getStop, Bool.eq_false_iff, ne_eq, same_iff hlawful]
        exact hne.symm
      · exact hstops.passes j hj
    obtain ⟨m', s', hy', rfl⟩ := get_returns_stops.mp hy
    rw [stored_same, stored_size] at hy'
    obtain ⟨-, rfl⟩ := hy'.unique hstops'
    rfl

end Stored

/-! ## A table that took the place of another -/

theorem Moved.get (hlawful : Lawful map) (h : Moved map map1)
    (hx : Returns (fun fuel => hashmap_get fuel (some map) (some key)) x) :
    Returns (fun fuel => hashmap_get fuel (some map1) (some key)) x := by
  obtain ⟨y, hy⟩ := h.ends key x hx
  have hold := get_conclusive hlawful h.old.tidy.noGap hx
  have hnew := get_conclusive (hlawful.congr h.compare) h.new.tidy.noGap hy
  simp only [h.live] at hnew
  have heq : y = x := by
    rcases hold with ⟨i, hi⟩ | ⟨rfl, habsent⟩ <;> rcases hnew with ⟨j, hj⟩ | ⟨rfl, habsent'⟩
    · obtain rfl := h.old.tidy.unique i j key x y hi hj
      simpa using hj.symm.trans hi
    · exact absurd ⟨i, hi⟩ (habsent' x)
    · exact absurd ⟨j, hj⟩ (habsent y)
    · rfl
  exact heq ▸ hy

/-! ## The put -/

/-- What a put stores is what a get of its key returns, and gets of other keys that return do so with what
they returned before, in every state of a run of less than `2 ^ 60` calls. -/
theorem put_seen {size : ulong} {compare : CString → CString → Int} (hsize : PowerOfTwo size)
    (hlawful : ∀ a b, compare a b = 0 ↔ a = b) {malloc₀ : Malloc} {map0 : hashmap V}
    (hnew : hashmap_new malloc₀ size compare = some map0) {calls : List (Call V)}
    (hrun : Run Step map0 calls map) (hfew : calls.length < 2 ^ 60) {b : Int}
    (hput : Returns (fun fuel => hashmap_put fuel malloc (some map) (some key) value) (some map', b)) :
    Returns (fun fuel => hashmap_get fuel (some map') (some key)) value ∧
      ∀ k' ≠ key, ∀ x y, Returns (fun fuel => hashmap_get fuel (some map) (some k')) x →
        Returns (fun fuel => hashmap_get fuel (some map') (some k')) y → y = x := by
  obtain ⟨hshape, hlawful, htallied⟩ := tallied_of_run hsize hlawful hnew hrun hfew
  obtain ⟨map1, hresized, n, e, hfinds, rfl, -⟩ := hashmap_put_returns.mp hput
  rcases hresized.moved hshape hlawful htallied with rfl | hmoved
  · refine ⟨get_stored_self hlawful hfinds, fun k' hne x y hx hy => ?_⟩
    exact get_stored_other hlawful hfinds htallied.noGap hne hx hy
  · have hlawful1 : Lawful map1 := hlawful.congr hmoved.compare
    refine ⟨get_stored_self hlawful1 hfinds, fun k' hne x y hx hy => ?_⟩
    exact get_stored_other hlawful1 hfinds hmoved.new.tidy.noGap hne (hmoved.get hlawful hx) hy

/-- After a delete in front of `keyE`, a put of it takes the deleted slot. -/
theorem put_seen_sample : ∃ map map' : hashmap Nat,
    Run Step map4 [.put mallocAll (some keyA) (some 1), .put mallocAll (some keyE) (some 2),
      .delete (some keyA)] map ∧
    hashmap_put 64 mallocAll (some map) (some keyE) (some 3) = .done (some map', 1) ∧
    Returns (fun fuel => hashmap_get fuel (some map') (some keyE)) (some 3) := by
  obtain ⟨map, hrun, map', hput⟩ : ∃ map : hashmap Nat, Run Step map4
      [.put mallocAll (some keyA) (some 1), .put mallocAll (some keyE) (some 2),
        .delete (some keyA)] map ∧
      ∃ map', hashmap_put 64 mallocAll (some map) (some keyE) (some 3) = .done (some map', 1) :=
    ⟨_, Run.of_foldlM step_of_step? rfl, _, rfl⟩
  exact ⟨map, map', hrun, hput,
    (put_seen (Or.inr ⟨2, rfl⟩) compareString_lawful map4_new hrun (by simp) ⟨64, hput⟩).1⟩

end Akio.Hashmap
