import Akio.Hashmap.Grow
import Akio.Hashmap.Seen

/-!
# The scans that `use` bounds

`hashmap_map` and `_hashmap_resize` leave their loops when a count down from `use` comes to 0. As `use` is
at least the number of live slots, no live slot is missed for that. A table whose size wrapped to 0 is not
looked at by `hashmap_map` at all.
-/

namespace Akio.Hashmap

open Outcome OpenAddress

variable {V : Type} {map map' : hashmap V} {k n : Nat} {call : Call V}

/-- The key and the value of each live slot, in the order of the slots. -/
def liveEntrys (entrys : List (map_entry V)) : List (CString × Option V) :=
  entrys.filterMap fun entry => entry.key.map fun key => (key, entry.value)

/-- The entry after `func` was called on it, if it has a key. -/
def visited (func : CString → Option V → Option V) (entry : map_entry V) : map_entry V :=
  match entry.key with
  | some key => { entry with value := func key entry.value }
  | none => entry

/-- `hashmap_map` calls `func` once on each live slot, in order, and on nothing else. -/
def ShowsAll (map : hashmap V) : Prop :=
  ∀ func, Returns (fun fuel => hashmap_map fuel (some map) (some func))
    (some { map with entrys := map.entrys.map (visited func) }, 1, liveEntrys map.entrys)

/-- `_hashmap_resize` leaves the map untouched, or every live slot is in the new table, and gets that
returned before return the same. -/
def ResizeKeeps (map : hashmap V) : Prop :=
  ∀ malloc, ∃ map1,
    Returns (fun fuel => hashmap_resize (putNonnull malloc fuel) fuel malloc map) map1 ∧
    (map1 = map ∨ map1.table.countP Slot.isLive = map.table.countP Slot.isLive ∧
      ∀ key v, LiveIn map.table key v → LiveIn map1.table key v) ∧
    ∀ key r, Returns (fun fuel => hashmap_get fuel (some map) (some key)) r →
      Returns (fun fuel => hashmap_get fuel (some map1) (some key)) r

/-- What `use` is for. -/
structure CountsLive (map : hashmap V) : Prop where
  use : map.table.countP Slot.isLive ≤ map.use.toNat
  shows : ShowsAll map
  resize : ResizeKeeps map

/-! ## `hashmap_map` -/

section Loop

variable {func : CString → Option V → Option V} {rest : List (map_entry V)}

theorem visited_dead {entry : map_entry V} (h : entry.slot.isLive = false) :
    entry.key = none := by
  cases hkey : entry.key with
  | none => rfl
  | some key =>
    rw [slot_of_key hkey] at h
    cases h

theorem visited_of_dead (func : CString → Option V → Option V)
    (h : (rest.map map_entry.slot).countP Slot.isLive = 0) :
    rest.map (visited func) = rest ∧ liveEntrys rest = [] := by
  induction rest with
  | nil => exact ⟨rfl, rfl⟩
  | cons entry rest ih =>
    rw [List.map_cons, List.countP_cons] at h
    have hkey : entry.key = none := by
      apply visited_dead
      by_contra hlive
      rw [if_pos (by simpa using hlive)] at h
      omega
    obtain ⟨hmap, hnil⟩ := ih (by omega)
    refine ⟨?_, ?_⟩
    · rw [List.map_cons, hmap]
      unfold visited
      rw [hkey]
    · unfold liveEntrys at hnil ⊢
      rw [List.filterMap_cons, hkey]
      exact hnil

theorem mapLoop_step {size i use : ulong} {front : List (map_entry V)} {entry : map_entry V}
    {shown : List (CString × Option V)} {fuel : Nat} (hgo : use > 0 ∧ i < size)
    (hi : i.toNat = front.length) :
    mapLoop func size (fuel + 1) i use (front ++ entry :: rest) shown =
      mapLoop func size fuel (i + 1) (if entry.slot.isLive then use - 1 else use)
        ((front ++ [visited func entry]) ++ rest) (shown ++ liveEntrys [entry]) := by
  have hget : (front ++ entry :: rest)[i.toNat]? = some entry := by
    rw [hi, List.getElem?_append_right (Nat.le_refl _), Nat.sub_self]
    rfl
  have hset : ∀ x, (front ++ entry :: rest).set i.toNat x = (front ++ [x]) ++ rest := by
    intro x
    rw [hi, List.set_append]
    simp
  conv => lhs; unfold mapLoop
  rw [if_pos hgo, hget]
  rcases entry with ⟨_ | key, value, isdel⟩
  · have hdead : (⟨none, value, isdel⟩ : map_entry V).slot.isLive = false := not_live_of_key rfl
    simp only [ofOption_some, done_bind, hdead]
    simp [visited, liveEntrys]
  · simp only [ofOption_some, done_bind, hset]
    simp [visited, liveEntrys, map_entry.slot, Slot.isLive]

theorem mapLoop_shows {size i use : ulong} {front : List (map_entry V)}
    {shown : List (CString × Option V)} {fuel : Nat} (hi : i.toNat = front.length)
    (hsize : size.toNat = front.length + rest.length)
    (huse : (rest.map map_entry.slot).countP Slot.isLive ≤ use.toNat) (hfuel : rest.length < fuel) :
    mapLoop func size fuel i use (front ++ rest) shown =
      .done (front ++ rest.map (visited func), shown ++ liveEntrys rest) := by
  induction rest generalizing i use front shown fuel with
  | nil =>
    obtain ⟨fuel, rfl⟩ : ∃ n, fuel = n + 1 := ⟨fuel - 1, by simp at hfuel; omega⟩
    have hstop : ¬ (use > 0 ∧ i < size) := by
      rintro ⟨-, hlt⟩
      rw [BitVec.lt_def, hi, hsize] at hlt
      simp at hlt
    unfold mapLoop
    rw [if_neg hstop]
    simp [liveEntrys]
  | cons entry rest ih =>
    obtain ⟨fuel, rfl⟩ : ∃ n, fuel = n + 1 := ⟨fuel - 1, by simp at hfuel; omega⟩
    by_cases hzero : use = 0
    · -- Nothing is left to count, so nothing is left.
      rw [hzero] at huse
      obtain ⟨hmap, hnil⟩ := visited_of_dead func (Nat.le_zero.mp huse)
      rw [hmap, hnil, hzero]
      unfold mapLoop
      simp
    · rw [List.length_cons] at hsize hfuel
      rw [List.map_cons, List.countP_cons] at huse
      have hgo : use > 0 ∧ i < size := by
        refine ⟨by bv_omega, ?_⟩
        rw [BitVec.lt_def, hi, hsize]
        omega
      have hsucc : (i + 1).toNat = front.length + 1 := by
        have := size.isLt
        rw [BitVec.toNat_add, show (1 : ulong).toNat = 1 from rfl, hi, Nat.mod_eq_of_lt (by omega)]
      rw [mapLoop_step hgo hi, ih]
      · simp [liveEntrys, List.filterMap_cons]
        cases entry.key <;> simp
      · rw [hsucc, List.length_append, List.length_singleton]
      · rw [hsize, List.length_append, List.length_singleton]
        omega
      · split
        · rw [if_pos ‹_›] at huse
          bv_omega
        · omega
      · omega

end Loop

theorem showsAll_of_whole (hwhole : Whole map k)
    (huse : map.table.countP Slot.isLive ≤ map.use.toNat) : ShowsAll map := by
  intro func
  have hsize : map.size.toNat = ([] : List (map_entry V)).length + map.entrys.length := by
    rw [hwhole.size, hwhole.length, List.length_nil, Nat.zero_add]
  have hloop : mapLoop func map.size (map.entrys.length + 1) 0 map.use ([] ++ map.entrys) [] = _ :=
    mapLoop_shows rfl hsize huse (Nat.lt_succ_self _)
  simp only [List.nil_append] at hloop
  exact ⟨map.entrys.length + 1, by simp only [hashmap_map, hloop, done_bind, pure_eq]⟩

theorem not_entered (h : map.use = 0 ∨ map.size = 0) : ¬ (map.use > 0 ∧ (0 : ulong) < map.size) := by
  rcases h with h | h <;> rw [h] <;> simp

theorem hashmap_map_stop (h : map.use = 0 ∨ map.size = 0) {func : CString → Option V → Option V} {fuel : Nat}
    {r : Option (hashmap V) × Int × List (CString × Option V)}
    (hreturns : hashmap_map fuel (some map) (some func) = .done r) : r = (some map, 1, []) := by
  obtain ⟨a, hloop, hr⟩ := bind_eq_done.mp hreturns
  cases fuel with
  | zero => cases hloop
  | succ fuel =>
    unfold mapLoop at hloop
    rw [if_neg (not_entered h)] at hloop
    cases hloop
    exact (done.inj hr).symm

theorem showsAll_of_dead (h : map.use = 0 ∨ map.size = 0)
    (hdead : map.table.countP Slot.isLive = 0) : ShowsAll map := by
  intro func
  obtain ⟨hmap, hnil⟩ := visited_of_dead func hdead
  rw [hmap, hnil]
  refine ⟨1, ?_⟩
  unfold hashmap_map mapLoop
  simp only [if_neg (not_entered h), pure_eq, done_bind]

theorem liveEntrys_nil (h : liveEntrys map.entrys = []) (key : CString) (v : Option V) :
    ¬ LiveIn map.table key v := by
  rintro ⟨i, hi⟩
  rw [hashmap.table, List.getElem?_map, Option.map_eq_some_iff] at hi
  obtain ⟨entry, hentry, hslot⟩ := hi
  unfold liveEntrys at h
  rw [List.filterMap_eq_nil_iff] at h
  have hkey := h entry (List.mem_of_getElem? hentry)
  rw [Option.map_eq_none_iff] at hkey
  have hdead := not_live_of_key hkey
  rw [hslot] at hdead
  cases hdead

theorem showsAll_iff (hshape : Shape map) (huse : map.table.countP Slot.isLive ≤ map.use.toNat) :
    ShowsAll map ↔ map.size ≠ 0 ∨ ∀ key v, ¬ LiveIn map.table key v := by
  constructor
  · intro hshows
    by_cases hzero : map.size = 0
    · refine Or.inr ?_
      obtain ⟨fuel, hreturns⟩ := hshows fun _ v => v
      have hr := hashmap_map_stop (Or.inr hzero) hreturns
      simp only [Prod.mk.injEq] at hr
      exact liveEntrys_nil hr.2.2
    · exact Or.inl hzero
  · intro h
    rcases hshape with ⟨k, -, hwhole⟩ | ⟨k, -, hentrys, hnone⟩ | ⟨hsize, -⟩
    · exact showsAll_of_whole hwhole huse
    · refine showsAll_of_dead (Or.inl hnone) ?_
      unfold hashmap.table
      rw [hentrys]
      rfl
    · refine showsAll_of_dead (Or.inr hsize) ?_
      rw [List.countP_eq_zero]
      intro s hs hlive
      obtain ⟨i, hi⟩ := List.mem_iff_getElem?.mp hs
      cases s with
      | never => cases hlive
      | deleted => cases hlive
      | live key v => exact h.resolve_left (fun hne => hne hsize) key v ⟨i, hi⟩

/-! ## Sizes that do not wrap -/

/-- A whole table, or the empty block that the sizes `2 ^ 61` and `2 ^ 62` get. -/
inductive Sized (map : hashmap V) : Prop where
  | whole (k : Nat) (hk : k ≤ 58) (whole : Whole map k)
  | empty (k : Nat) (hk : k = 61 ∨ k = 62) (size : map.size.toNat = 2 ^ k) (entrys : map.entrys = [])
    (use : map.use = 0)

theorem Sized.size_ne (h : Sized map) : map.size ≠ 0 := by
  rcases h with ⟨k, -, hwhole⟩ | ⟨k, -, hsize, -, -⟩
  · exact ne_zero_of_toNat hwhole.size
  · exact ne_zero_of_toNat hsize

theorem Sized.step (h : Sized map) (hstep : Step map call map') : Sized map' := by
  rcases hstep.cases with rfl | ⟨malloc, key, value, -, map1, hresized, n, e, hfinds, rfl⟩ |
    ⟨key, -, n, e, hfinds, rfl⟩
  · exact h
  · rcases h with ⟨k, hk, hwhole⟩ | ⟨k, hk, hsize, hentrys, huse⟩
    · obtain ⟨new, hreturns, hnew⟩ := hashmap_resize_returns hwhole hk malloc
      obtain ⟨k', hk', hwhole'⟩ : ∃ k' ≤ 58, Whole map1 k' := by
        rcases hresized.eq_or hreturns with rfl | rfl
        · exact ⟨k, hk, hwhole⟩
        · rcases hnew with rfl | ⟨hk', hwhole', -⟩
          · exact ⟨k, hk, hwhole⟩
          · exact ⟨k + 1, hk', hwhole'⟩
      exact .whole k' hk' (hwhole'.stored _)
    · exact (not_put_empty hk hsize huse hentrys hresized hfinds).elim
  · rcases h with ⟨k, hk, hwhole⟩ | ⟨k, hk, hsize, hentrys, huse⟩
    · exact .whole k hk ⟨by rw [unlinked_size, hwhole.size], by rw [unlinked_length, hwhole.length]⟩
    · exact absurd hentrys hfinds.entrys_ne

theorem Sized.of_new {size : ulong} {compare : CString → CString → Int} {malloc : Malloc}
    (hsize : PowerOfTwo size) (h63 : size.toNat ≠ 2 ^ 63)
    (hnew : hashmap_new malloc size compare = some map) : Sized map := by
  rcases Counted.of_new hsize h63 hnew with ⟨k, hk, hwhole, -⟩ | ⟨k, hk, hsize, hentrys, huse⟩
  · exact .whole k hk hwhole
  · exact .empty k hk hsize hentrys huse

/-! ## Every reachable state -/

theorem Tallied.resizeKeeps (hshape : Shape map) (hlawful : Lawful map) (h : Tallied map n) :
    ResizeKeeps map := by
  intro malloc
  obtain ⟨map1, hreturns, rfl | hmoved⟩ := hashmap_resize_moved hshape hlawful h malloc
  · exact ⟨map1, hreturns, Or.inl rfl, fun _ _ hget => hget⟩
  · refine ⟨map1, hreturns, Or.inr ⟨?_, fun key v => (hmoved.live key v).mpr⟩, ?_⟩
    · rw [← hmoved.new.use_eq, ← hmoved.old.use_eq, hmoved.use]
    · intro key r hget
      exact hmoved.get hlawful hget

/-- In every state of a run of less than `2 ^ 60` calls `use` does what it is for exactly when the size did
not wrap to 0, or nothing is in the table. Only the initial size `2 ^ 63` wraps. -/
theorem counts_live_iff {size : ulong} {compare : CString → CString → Int} (hsize : PowerOfTwo size)
    (hlawful : ∀ a b, compare a b = 0 ↔ a = b) {malloc : Malloc} {map0 : hashmap V}
    (hnew : hashmap_new malloc size compare = some map0) {calls : List (Call V)}
    (hrun : Run Step map0 calls map) (hfew : calls.length < 2 ^ 60) :
    (CountsLive map ↔ map.size ≠ 0 ∨ ∀ key v, ¬ LiveIn map.table key v) ∧
      (size.toNat ≠ 2 ^ 63 → map.size ≠ 0) := by
  obtain ⟨hshape, hlawful, htallied⟩ := tallied_of_run hsize hlawful hnew hrun hfew
  refine ⟨?_, ?_⟩
  · rw [← showsAll_iff hshape htallied.count_le]
    constructor
    · intro h
      exact h.shows
    · intro hshows
      exact ⟨htallied.count_le, hshows, htallied.resizeKeeps hshape hlawful⟩
  · intro h63
    apply Sized.size_ne
    exact hrun.invariant (P := Sized) (fun _ _ _ h hstep => h.step hstep) (Sized.of_new hsize h63 hnew)

theorem counts_live_iff_sample : CountsLive mapAgain := by
  have hrun : Run Step map4 [putA, putE, .delete (some keyA), putA] mapAgain :=
    Run.of_foldlM step_of_step? rfl
  obtain ⟨hiff, -⟩ := counts_live_iff (Or.inr ⟨2, rfl⟩) compareString_lawful map4_new hrun (by simp)
  exact hiff.mpr (Or.inl (by decide))

/-- A map of size `2 ^ 63` grows to the size 0. The empty key has the hash 0, so a put of it returns, and
`hashmap_map` does not show it. -/
theorem counts_live_wrapped : ∃ (map0 map : hashmap Nat) (key : CString),
    hashmap_new mallocAll (1 <<< 63) compareString = some map0 ∧
    Run Step map0 [.put mallocAll (some key) (some 1)] map ∧
    LiveIn map.table key (some 1) ∧
    hashmap_map 1 (some map) (some fun _ v => v) = .done (some map, 1, []) ∧ ¬ CountsLive map := by
  obtain ⟨map0, map, key, hnew, hrun, hlive, hsize, hmap⟩ : ∃ (map0 map : hashmap Nat) (key : CString),
      hashmap_new mallocAll (1 <<< 63) compareString = some map0 ∧
      Run Step map0 [.put mallocAll (some key) (some 1)] map ∧ LiveIn map.table key (some 1) ∧
      map.size = 0 ∧ hashmap_map 1 (some map) (some fun _ v => v) = .done (some map, 1, []) :=
    ⟨_, _, ⟨[], by simp⟩, rfl, Run.of_foldlM step_of_step? rfl, ⟨0, rfl⟩, rfl, rfl⟩
  refine ⟨map0, map, key, hnew, hrun, hlive, hmap, ?_⟩
  intro h
  obtain ⟨fuel, hreturns⟩ := h.shows fun _ v => v
  have hr := hashmap_map_stop (Or.inr hsize) hreturns
  simp only [Prod.mk.injEq] at hr
  exact liveEntrys_nil hr.2.2 key (some 1) hlive

end Akio.Hashmap
