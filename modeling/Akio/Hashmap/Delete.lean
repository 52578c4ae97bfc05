import Akio.Hashmap.Runs

/-!
# Deleting a key

A delete ends at the first slot that is deleted or of the key, a get at the first slot never used or of
the key. So a delete misses a key behind a deleted slot that a get still finds, and a delete of a key
that is nowhere does not end in a table that nothing was deleted from.
-/

namespace Akio.Hashmap

open Outcome OpenAddress

variable {V : Type} {map : hashmap V} {key k' : CString} {v : V} {n : Nat} {e : map_entry V}

/-- A delete of the key returns `v`, a get of it then returns NULL, and gets of other keys return what
they did. -/
def Deletes (map : hashmap V) (key : CString) (v : V) : Prop :=
  ∃ map', Returns (fun fuel => hashmap_delete fuel (some map) (some key)) (some map', some v) ∧
    Returns (fun fuel => hashmap_get fuel (some map') (some key)) none ∧
    ∀ k' ≠ key, ∀ r, Returns (fun fuel => hashmap_get fuel (some map) (some k')) r →
      Returns (fun fuel => hashmap_get fuel (some map') (some k')) r

/-- Slot number `n` on the path of the key is its first slot, behind live slots only. -/
structure InFront (map : hashmap V) (key : CString) (n : Nat) : Prop where
  slot : ∃ v, map.table[path map.size key n]? = some (.live key v)
  before : ∀ j < n, ∃ k w, map.table[path map.size key j]? = some (.live k w) ∧ k ≠ key

/-- But for the slot number `n`, the path of the key comes to a slot never used, or to a slot of the key
with the value NULL, before it comes to the end of the block or to another slot of the key. -/
def OpenBehind (map : hashmap V) (key : CString) (n : Nat) : Prop :=
  ∃ m,
    (∀ j < m, path map.size key j = path map.size key n ∨ ∃ s, map.table[path map.size key j]? = some s ∧
      s ≠ .never ∧ ∀ w, s ≠ .live key w) ∧
    (map.table[path map.size key m]? = some .never ∨ path map.size key m ≠ path map.size key n ∧
      map.table[path map.size key m]? = some (.live key none))

/-! ## One slot less -/

section Unlinked

variable (hslot : map.table[path map.size key n]? = some e.slot) (hlive : e.slot.isLive)

include hslot hlive in
theorem unlinked_getElem? (i : Nat) : (unlinked map (path map.size key n) e).table[i]? =
    if path map.size key n = i then some .deleted else map.table[i]? := by
  have hlt := (List.getElem?_eq_some_iff.mp hslot).1
  rw [unlinked_table hlive, List.getElem?_set, if_pos hlt]

include hslot in
theorem get_unlinked (hlawful : Lawful map) (hkey : ∃ w, e.slot = .live key w) (hne : k' ≠ key)
    {r : Option V} (h : Returns (fun fuel => hashmap_get fuel (some map) (some k')) r) :
    Returns (fun fuel => hashmap_get fuel (some (unlinked map (path map.size key n) e)) (some k')) r := by
  obtain ⟨w, hkey⟩ := hkey
  have hget := unlinked_getElem? hslot (by rw [hkey]; rfl)
  have hother : getStop (map.same k') e.slot = false := by
    rw [hkey, getStop, Bool.eq_false_iff, ne_eq, same_iff hlawful]
    exact hne.symm
  obtain ⟨m, s, hstops, rfl⟩ := get_returns_stops.mp h
  have hend : path map.size key n ≠ path map.size k' m := by
    intro heq
    have hslot' := hstops.slot
    rw [← heq, hslot] at hslot'
    have hfound := hstops.found
    rw [← Option.some.inj hslot', hother] at hfound
    cases hfound
  rw [get_returns_stops, unlinked_same, unlinked_size]
  refine ⟨m, s, ⟨?_, by rw [hget, if_neg hend, hstops.slot], hstops.found⟩, rfl⟩
  intro j hj
  rw [hget]
  split
  · exact ⟨.deleted, rfl, rfl⟩
  · exact hstops.passes j hj

end Unlinked

theorem get_unlinked_none (hlawful : Lawful map) (hslot : map.table[path map.size key n]? = some e.slot)
    (hkey : ∃ w, e.slot = .live key w) :
    Returns (fun fuel => hashmap_get fuel (some (unlinked map (path map.size key n) e)) (some key)) none ↔
      OpenBehind map key n := by
  obtain ⟨w, hkey⟩ := hkey
  have hget := unlinked_getElem? hslot (by rw [hkey]; rfl)
  have hself : map.same key key = true := (same_iff hlawful).mpr rfl
  rw [get_returns_stops, unlinked_same, unlinked_size]
  constructor
  · rintro ⟨m, s, ⟨hpass, hend, hfound⟩, hnone⟩
    refine ⟨m, ?_, ?_⟩
    · intro j hj
      by_cases heq : path map.size key j = path map.size key n
      · exact Or.inl heq
      · obtain ⟨s, hs, hno⟩ := hpass j hj
        rw [hget, if_neg (Ne.symm heq)] at hs
        refine Or.inr ⟨s, hs, ?_, ?_⟩
        · rintro rfl
          cases hno
        · rintro u rfl
          rw [getStop, hself] at hno
          cases hno
    · have hne : path map.size key n ≠ path map.size key m := by
        intro heq
        rw [hget, if_pos heq] at hend
        rw [← Option.some.inj hend] at hfound
        cases hfound
      rw [hget, if_neg hne] at hend
      cases s with
      | never => exact Or.inl hend
      | deleted => cases hfound
      | live k u =>
        obtain rfl := (same_iff hlawful).mp hfound
        obtain rfl : u = none := hnone
        exact Or.inr ⟨hne.symm, hend⟩
  · rintro ⟨m, hpass, hend⟩
    have hpasses : Passes (unlinked map (path map.size key n) e).table (getStop (map.same key))
        (path map.size key) m := by
      intro j hj
      rw [hget]
      split
      · exact ⟨.deleted, rfl, rfl⟩
      · rcases hpass j hj with heq | ⟨s, hs, hnever, hno⟩
        · exact absurd heq.symm ‹_›
        · refine ⟨s, hs, ?_⟩
          cases s with
          | never => exact absurd rfl hnever
          | deleted => rfl
          | live k u =>
            rw [getStop, Bool.eq_false_iff, ne_eq, same_iff hlawful]
            rintro rfl
            exact hno u rfl
    rcases hend with hend | ⟨hne, hend⟩
    · refine ⟨m, .never, ⟨hpasses, ?_, rfl⟩, rfl⟩
      rw [hget, if_neg, hend]
      intro heq
      rw [← heq, hslot, hkey] at hend
      cases hend
    · exact ⟨m, .live key none, ⟨hpasses, by rw [hget, if_neg hne.symm, hend], hself⟩, rfl⟩

/-! ## When a delete finds its key -/

theorem hashmap_delete_unique {r r' : Option (hashmap V) × Option V}
    (h : Returns (fun fuel => hashmap_delete fuel (some map) (some key)) r)
    (h' : Returns (fun fuel => hashmap_delete fuel (some map) (some key)) r') : r = r' := by
  refine Steady.returns_unique ?_ h h'
  intro n m r hle h
  obtain ⟨a, ha, h⟩ := bind_eq_done.mp h
  simp only [hashmap_delete, probeLoop_mono hle ha, done_bind]
  exact h

theorem Stops.of_inFront {p : Slot CString (Option V) → Bool} (hfront : InFront map key n)
    {w : Option V} (hslot : map.table[path map.size key n]? = some (.live key w))
    (hlive : ∀ k w, p (.live k w) = map.same key k) (hlawful : Lawful map) :
    Stops map.table p (path map.size key) n (.live key w) := by
  refine ⟨?_, hslot, (hlive key w).trans ((same_iff hlawful).mpr rfl)⟩
  intro j hj
  obtain ⟨k, u, hs, hne⟩ := hfront.before j hj
  refine ⟨_, hs, ?_⟩
  rw [hlive, Bool.eq_false_iff, ne_eq, same_iff hlawful]
  exact hne

theorem delete_returns_iff (hlawful : Lawful map) {map' : hashmap V}
    (hget : Returns (fun fuel => hashmap_get fuel (some map) (some key)) (some v)) :
    Returns (fun fuel => hashmap_delete fuel (some map) (some key)) (some map', some v) ↔
      ∃ n e, InFront map key n ∧ map.table[path map.size key n]? = some e.slot ∧
        map.entrys[path map.size key n]? = some e ∧ map' = unlinked map (path map.size key n) e := by
  obtain ⟨n, s, hstops, hvalue⟩ := get_returns_stops.mp hget
  have hfound := hstops.found
  rw [delete_returns]
  constructor
  · rintro ⟨m, e, hfinds, rfl, hr⟩
    obtain ⟨u, hlive⟩ : ∃ u, e.slot = .live key u := by
      have hfound' := hfinds.found
      cases hs : e.slot with
      | never => rw [hs] at hfound'; cases hfound'
      | deleted => rw [hs] at hr; cases hr
      | live k u =>
        rw [hs] at hfound'
        exact ⟨u, by rw [(same_iff hlawful).mp hfound']⟩
    have hle : m ≤ n := by
      by_contra hlt
      obtain ⟨x, hx, hno⟩ := hfinds.stops.passes n (by omega)
      obtain rfl := Option.some.inj (hx.symm.trans hstops.slot)
      cases x with
      | never => cases hvalue
      | deleted => cases hvalue
      | live k u => exact absurd (hfound.symm.trans hno) (by simp)
    refine ⟨m, e, ⟨⟨u, hlive ▸ hfinds.stops.slot⟩, ?_⟩, hfinds.stops.slot, hfinds.entry, rfl⟩
    intro j hj
    obtain ⟨x, hx, hno⟩ := hfinds.stops.passes j hj
    obtain ⟨y, hy, hno'⟩ := hstops.passes j (by omega)
    obtain rfl := Option.some.inj (hx.symm.trans hy)
    cases x with
    | never => cases hno'
    | deleted => cases hno
    | live k w =>
      rw [deleteStop, Bool.eq_false_iff, ne_eq, same_iff hlawful] at hno
      exact ⟨k, w, hx, hno⟩
  · rintro ⟨m, e, hfront, hslot, hentry, rfl⟩
    obtain ⟨u, hlive⟩ := hfront.slot
    have hget' := Stops.of_inFront (p := getStop (map.same key)) hfront hlive (fun _ _ => rfl) hlawful
    obtain ⟨rfl, rfl⟩ := hstops.unique hget'
    have hdelete := Stops.of_inFront (p := deleteStop (map.same key)) hfront hlive (fun _ _ => rfl) hlawful
    rw [hlive] at hslot
    obtain ⟨e', hfinds, -⟩ := Stops.finds hdelete
    obtain rfl := Option.some.inj (hfinds.entry.symm.trans hentry)
    exact ⟨n, e', hfinds, rfl, by rw [← Option.some.inj hslot, hvalue]⟩

/-- A delete of a key that a get finds removes that key and no other exactly when its first slot is
behind live slots only, and the path is open behind it. -/
theorem deletes_iff (hlawful : Lawful map)
    (hget : Returns (fun fuel => hashmap_get fuel (some map) (some key)) (some v)) :
    Deletes map key v ↔ ∃ n, InFront map key n ∧ OpenBehind map key n := by
  constructor
  · rintro ⟨map', hdelete, hnone, -⟩
    obtain ⟨n, e, hfront, hslot, -, rfl⟩ := (delete_returns_iff hlawful hget).mp hdelete
    obtain ⟨w, hlive⟩ := hfront.slot
    have hkey : ∃ w, e.slot = .live key w := ⟨w, Option.some.inj (hslot.symm.trans hlive)⟩
    exact ⟨n, hfront, (get_unlinked_none hlawful hslot hkey).mp hnone⟩
  · rintro ⟨n, hfront, hopen⟩
    obtain ⟨w, hlive⟩ := hfront.slot
    obtain ⟨e, hentry, hkey⟩ : ∃ e, map.entrys[path map.size key n]? = some e ∧ e.slot = .live key w := by
      rw [hashmap.table, List.getElem?_map, Option.map_eq_some_iff] at hlive
      exact hlive
    have hslot : map.table[path map.size key n]? = some e.slot := by rw [hlive, hkey]
    refine ⟨_, (delete_returns_iff hlawful hget).mpr ⟨n, e, hfront, hslot, hentry, rfl⟩,
      (get_unlinked_none hlawful hslot ⟨w, hkey⟩).mpr hopen, ?_⟩
    intro k' hne r h
    exact get_unlinked hslot hlawful ⟨w, hkey⟩ hne h

theorem deletes_iff_sample : Deletes mapAE keyE 2 := by
  have hlawful : Lawful mapAE := compareString_lawful
  have hget : Returns (fun fuel => hashmap_get fuel (some mapAE) (some keyE)) (some 2) := ⟨64, rfl⟩
  refine (deletes_iff hlawful hget).mpr ⟨2, ⟨⟨some 2, rfl⟩, ?_⟩, 3, ?_, Or.inl rfl⟩
  · intro j hj
    -- The key first comes to slot 0 twice.
    obtain rfl | rfl : j = 0 ∨ j = 1 := by omega
    all_goals exact ⟨keyA, some 1, rfl, by decide⟩
  · intro j hj
    obtain rfl | rfl | rfl : j = 0 ∨ j = 1 ∨ j = 2 := by omega
    · exact Or.inr ⟨.live keyA (some 1), rfl, by decide, by simp [keyA, keyE]⟩
    · exact Or.inr ⟨.live keyA (some 1), rfl, by decide, by simp [keyA, keyE]⟩
    · exact Or.inl rfl

/-- Once a key in front is deleted, a delete of the key behind it returns NULL. -/
theorem delete_misses : ∃ map : hashmap Nat,
    Run Step map4 [.put mallocAll (some keyA) (some 1), .put mallocAll (some keyE) (some 2),
      .delete (some keyA)] map ∧
    hashmap_get 64 (some map) (some keyE) = .done (some 2) ∧
    hashmap_delete 64 (some map) (some keyE) = .done (some map, none) ∧ ¬ Deletes map keyE 2 := by
  refine ⟨_, Run.of_foldlM step_of_step? rfl, rfl, rfl, ?_⟩
  rintro ⟨map', hdelete, -⟩
  cases hashmap_delete_unique hdelete ⟨64, rfl⟩

/-! ## A key that is nowhere -/

/-- A delete of the key returns NULL and leaves the map as it was. -/
def LeavesAlone (map : hashmap V) (key : CString) : Prop :=
  Returns (fun fuel => hashmap_delete fuel (some map) (some key)) (some map, none)

/-- The path of the key comes to a deleted slot before it leaves the block. -/
def MeetsDeleted (map : hashmap V) (key : CString) : Prop :=
  ∃ n, map.table[path map.size key n]? = some .deleted ∧
    ∀ j < n, path map.size key j < map.table.length

theorem deleteStop_absent (habsent : ∀ k v, LiveIn map.table k v → map.compare k key ≠ 0)
    {s : Slot CString (Option V)} {i : Nat} (hs : map.table[i]? = some s)
    (hstop : deleteStop (map.same key) s) : s = .deleted := by
  cases s with
  | never => cases hstop
  | deleted => rfl
  | live k v =>
    have hsame : map.compare k key = 0 := by simpa [deleteStop, hashmap.same] using hstop
    exact absurd hsame (habsent k v ⟨i, hs⟩)

theorem leavesAlone_iff (habsent : ∀ k v, LiveIn map.table k v → map.compare k key ≠ 0) :
    LeavesAlone map key ↔ MeetsDeleted map key := by
  unfold LeavesAlone
  rw [delete_returns]
  constructor
  · rintro ⟨n, e, hfinds, -, -⟩
    have hslot := hfinds.stops.slot
    refine ⟨n, ?_, ?_⟩
    · rw [hslot, deleteStop_absent habsent hslot hfinds.found]
    · intro j hj
      obtain ⟨s, hs, -⟩ := hfinds.passes j hj
      exact (List.getElem?_eq_some_iff.mp hs).1
  · rintro ⟨n, hn, hin⟩
    obtain ⟨m, -, s, hstops⟩ := exists_stops hin hn (p := deleteStop (map.same key)) rfl
    obtain rfl := deleteStop_absent habsent hstops.slot hstops.found
    obtain ⟨e, hfinds, hslot⟩ := Stops.finds hstops
    refine ⟨m, e, hfinds, ?_, ?_⟩
    · unfold unlinked
      simp [hslot, Slot.isLive]
    · rw [hslot]
      rfl

theorem meetsDeleted_iff {k : Nat} (hwhole : Whole map k) :
    MeetsDeleted map key ↔ .deleted ∈ map.table := by
  constructor
  · rintro ⟨n, hn, -⟩
    exact List.mem_of_getElem? hn
  · intro hmem
    obtain ⟨i, hi⟩ := List.mem_iff_getElem?.mp hmem
    have hlt := (List.getElem?_eq_some_iff.mp hi).1
    rw [table_length, hwhole.length] at hlt
    obtain ⟨n, rfl⟩ := path_covers hwhole.size key hlt
    refine ⟨n, hi, fun j _ => ?_⟩
    rw [table_length, hwhole.length]
    exact probe_lt hwhole.size j

/-- A delete of a key that is nowhere leaves the map alone exactly when the path of the key comes to a
deleted slot. In a block as large as `size` says, that is any deleted slot. -/
theorem delete_absent_iff {size : ulong} {compare : CString → CString → Int} (hsize : PowerOfTwo size)
    (h : Reachable size compare map)
    (habsent : ∀ k v, LiveIn map.table k v → map.compare k key ≠ 0) :
    (LeavesAlone map key ↔ MeetsDeleted map key) ∧
      (map.entrys.length = map.size.toNat → (MeetsDeleted map key ↔ .deleted ∈ map.table)) := by
  refine ⟨leavesAlone_iff habsent, ?_⟩
  intro hlength
  obtain ⟨k, -, hwhole⟩ := (h.shape hsize).whole_of_length hlength
  exact meetsDeleted_iff hwhole

theorem map4_absent (key k : CString) (v : Option Nat) (h : LiveIn map4.table k v) :
    map4.compare k key ≠ 0 :=
  absurd h (not_liveIn_replicate (n := 4))

theorem delete_absent_iff_sample : LeavesAlone mapA keyE := by
  have habsent : ∀ k v, LiveIn mapA.table k v → mapA.compare k keyE ≠ 0 := by
    rintro k v ⟨i, hi⟩
    have hlive : Slot.live k v ∈ mapA.table := List.mem_of_getElem? hi
    obtain ⟨rfl, -⟩ : k = keyA ∧ v = some 1 := by simpa [mapA, hashmap.table, map_entry.slot, TRUE] using hlive
    decide
  obtain ⟨hiff, -⟩ := delete_absent_iff (Or.inr ⟨2, rfl⟩) mapA_reachable habsent
  exact hiff.mpr ⟨2, rfl, by decide⟩

/-- In a new map of size 4, whose slots were all never used, a delete does not return. -/
theorem delete_absent_runs : Reachable 4 compareString map4 ∧ .never ∈ map4.table ∧
    (∀ k v, LiveIn map4.table k v → map4.compare k keyA ≠ 0) ∧
    ¬ ∃ r, Returns (fun fuel => hashmap_delete fuel (some map4) (some keyA)) r := by
  refine ⟨map4_reachable, by decide, map4_absent keyA, ?_⟩
  rintro ⟨⟨_ | map', r⟩, fuel, h⟩
  · obtain ⟨a, -, h⟩ := bind_eq_done.mp h
    cases h
  · obtain ⟨n, e, hfinds, -, -⟩ := delete_returns.mp ⟨fuel, h⟩
    have hmem := List.mem_of_getElem? hfinds.stops.slot
    rw [deleteStop_absent (map4_absent keyA) hfinds.stops.slot hfinds.found] at hmem
    exact absurd hmem (by decide)

end Akio.Hashmap
