import Akio.Hashmap.Probe

/-!
# Tables

A table whose block holds as many entries as `size` says is `Whole`. On such a table a loop ends as soon
as some slot, anywhere, would end it. With a `compare` that is 0 on equal keys only, what a put leaves
is the table with one slot written.
-/

namespace Akio.Hashmap

open Outcome OpenAddress

variable {V : Type}

/-- The block of the table holds `2 ^ k` entries, and `size` says so. -/
structure Whole (map : hashmap V) (k : Nat) : Prop where
  size : map.size.toNat = 2 ^ k
  length : map.entrys.length = 2 ^ k

/-- `compare` returns 0 on equal keys only. -/
def Lawful (map : hashmap V) : Prop := ∀ a b, map.compare a b = 0 ↔ a = b

variable {map map' : hashmap V} {p : Slot CString (Option V) → Bool} {key : CString}
  {value : Option V} {n k : Nat} {e : map_entry V}

theorem Lawful.congr (hlawful : Lawful map) (h : map'.compare = map.compare) : Lawful map' := by
  unfold Lawful
  rw [h]
  exact hlawful

theorem exists_finds (hwhole : Whole map k) {s : Slot CString (Option V)} (hs : s ∈ map.table)
    (hp : p s) (key : CString) : ∃ n e, Finds map.entrys map.size p key n e := by
  obtain ⟨i, hi⟩ := List.mem_iff_getElem?.mp hs
  have hlt := (List.getElem?_eq_some_iff.mp hi).1
  rw [table_length, hwhole.length] at hlt
  obtain ⟨n, rfl⟩ := path_covers hwhole.size key hlt
  have hin : ∀ j < n, path map.size key j < map.table.length := by
    intro j _
    rw [table_length, hwhole.length]
    exact probe_lt hwhole.size j
  obtain ⟨m, -, s', hstop⟩ := exists_stops hin hi hp
  obtain ⟨e, hfinds, -⟩ := Stops.finds hstop
  exact ⟨m, e, hfinds⟩

theorem same_iff (hlawful : Lawful map) {key k : CString} : map.same key k = true ↔ k = key := by
  unfold hashmap.same
  rw [decide_eq_true_iff, hlawful]

theorem absent_of_stops (hlawful : Lawful map) (hnoGap : NoGap (path map.size) map.table)
    (hstops : Stops map.table (getStop (map.same key)) (path map.size key) n .never) (v : Option V) :
    ¬ LiveIn map.table key v := by
  apply hnoGap.absent ((same_iff hlawful).mpr rfl) (hstops.passes.imp _) hstops.slot
  intro s hs
  cases s with
  | live k v => exact hs
  | never => rfl
  | deleted => cases hs

/-- A get that returns is conclusive: its key is in the table with that value, or in no slot. -/
theorem get_conclusive (hlawful : Lawful map) (hnoGap : NoGap (path map.size) map.table) {r : Option V}
    (h : Returns (fun fuel => hashmap_get fuel (some map) (some key)) r) :
    LiveIn map.table key r ∨ r = none ∧ ∀ v, ¬ LiveIn map.table key v := by
  obtain ⟨n, s, hstops, rfl⟩ := get_returns_stops.mp h
  have hslot := hstops.slot
  have hfound := hstops.found
  cases s with
  | never => exact Or.inr ⟨rfl, absent_of_stops hlawful hnoGap hstops⟩
  | deleted => cases hfound
  | live k v =>
    obtain rfl := (same_iff hlawful).mp hfound
    exact Or.inl ⟨_, hslot⟩

/-! ## What a put leaves -/

@[simp] theorem stored_size (i : Nat) : (stored map i e key value).size = map.size := by
  unfold stored
  split <;> rfl

@[simp] theorem stored_compare (i : Nat) : (stored map i e key value).compare = map.compare := by
  unfold stored
  split <;> rfl

@[simp] theorem stored_length (i : Nat) :
    (stored map i e key value).entrys.length = map.entrys.length := by
  unfold stored
  split <;> simp

theorem Whole.stored (h : Whole map k) (i : Nat) : Whole (stored map i e key value) k :=
  ⟨by rw [stored_size, h.size], by rw [stored_length, h.length]⟩

theorem Finds.lt_length (h : Finds map.entrys map.size p key n e) :
    path map.size key n < map.table.length := by
  rw [table_length]
  exact (List.getElem?_eq_some_iff.mp h.entry).1

theorem Finds.start_lt (h : Finds map.entrys map.size p key n e) :
    path map.size key 0 < map.table.length := by
  rcases Nat.eq_zero_or_pos n with rfl | hpos
  · exact h.lt_length
  · obtain ⟨s, hs, -⟩ := h.stops.passes 0 hpos
    exact (List.getElem?_eq_some_iff.mp hs).1

theorem putStop_slot (hlawful : Lawful map) {s : Slot CString (Option V)}
    (h : putStop (map.same key) s) : s = .never ∨ s = .deleted ∨ ∃ v, s = .live key v := by
  cases s with
  | never => exact Or.inl rfl
  | deleted => exact Or.inr (Or.inl rfl)
  | live k v =>
    obtain rfl := (same_iff hlawful).mp h
    exact Or.inr (Or.inr ⟨v, rfl⟩)

theorem stored_table_eq (value : Option V) (hlawful : Lawful map)
    (h : Finds map.entrys map.size (putStop (map.same key)) key n e) :
    (stored map (path map.size key n) e key value).table =
      map.table.set (path map.size key n) (.live key value) := by
  rw [stored_table]
  rcases hkey : e.key with _ | k
  · rfl
  · have hfound := h.found
    unfold map_entry.slot at hfound
    rw [hkey] at hfound
    obtain rfl := (same_iff hlawful).mp hfound
    rfl

/-- What holds of a tidy table: searches that end are conclusive, and no key is there twice. -/
structure Tidy (map : hashmap V) : Prop where
  noGap : NoGap (path map.size) map.table
  unique : Unique map.table

/-- The key is in no slot but the one a put of it ends at. -/
def Alone (map : hashmap V) (key : CString) (i : Nat) : Prop :=
  ∀ (j : Nat) w, map.table[j]? = some (Slot.live key w) → j = i

theorem Finds.alone (hlawful : Lawful map) (htidy : Tidy map)
    (h : Finds map.entrys map.size (putStop (map.same key)) key n e) (hslot : e.slot ≠ .deleted) :
    Alone map key (path map.size key n) := by
  intro j w hj
  refine htidy.noGap.only ((same_iff hlawful).mpr rfl) htidy.unique
    (h.stops.passes.imp ?_) ?_ hj
  · intro s hs
    cases s with
    | live k v => exact hs
    | never => rfl
    | deleted => rfl
  · have hs := h.stops.slot
    rcases putStop_slot hlawful h.found with hnever | hdel | ⟨v, hlive⟩
    · exact Or.inl (hnever ▸ hs)
    · exact absurd hdel hslot
    · exact Or.inr ⟨v, hlive ▸ hs⟩

section Store

variable (value : Option V) (hlawful : Lawful map) (hnoGap : NoGap (path map.size) map.table)
  (htidy : Tidy map) (hfinds : Finds map.entrys map.size (putStop (map.same key)) key n e)
  (halone : Alone map key (path map.size key n))

include hlawful hnoGap hfinds in
theorem noGap_stored : NoGap (path map.size) (stored map (path map.size key n) e key value).table := by
  rw [stored_table_eq value hlawful hfinds]
  refine hnoGap.fill (hfinds.stops.passes.imp ?_)
  intro s hs
  cases s with
  | never => rfl
  | deleted => cases hs
  | live k v => cases hs

include hlawful htidy hfinds halone in
theorem tidy_stored : Tidy (stored map (path map.size key n) e key value) := by
  refine ⟨?_, ?_⟩
  · rw [stored_size]
    exact noGap_stored value hlawful htidy.noGap hfinds
  · rw [stored_table_eq value hlawful hfinds]
    exact htidy.unique.fill halone

include hlawful hfinds halone in
theorem liveIn_stored (k' : CString) (w : Option V) :
    LiveIn (stored map (path map.size key n) e key value).table k' w ↔
      (k' = key ∧ w = value) ∨ (k' ≠ key ∧ LiveIn map.table k' w) := by
  rw [stored_table_eq value hlawful hfinds]
  refine liveIn_fill hfinds.lt_length ?_ halone
  intro k' w hk
  have hslot := Option.some.inj (hfinds.stops.slot.symm.trans hk)
  rcases putStop_slot hlawful hfinds.found with h | h | ⟨v, h⟩
  · rw [h] at hslot
    cases hslot
  · rw [h] at hslot
    cases hslot
  · rw [h] at hslot
    cases hslot
    rfl

end Store

end Akio.Hashmap
