import Akio.Hashmap.Runs

/-!
# Calls that end

The loops end only at a slot of the key or at one never used, and nothing keeps such a slot: a table of
size 1 or 2 fills up before its load is checked, and so does one that cannot grow.
-/

namespace Akio.Hashmap

open Outcome OpenAddress

variable {V : Type} {map : hashmap V} {key : CString}

/-- Every get and every put of a key returns, whatever `malloc` answers. -/
def AlwaysEnds (map : hashmap V) : Prop :=
  ∀ key, (∃ r, Returns (fun fuel => hashmap_get fuel (some map) (some key)) r) ∧
    ∀ malloc value, ∃ r, Returns (fun fuel => hashmap_put fuel malloc (some map) (some key) value) r

/-- The block is as large as `size` says, and for every key it has a slot never used or a slot whose key
compares equal. -/
def HasEnds (map : hashmap V) : Prop :=
  map.entrys.length = map.size.toNat ∧ ∀ key, ∃ s ∈ map.table, s = .never ∨ s.holds (map.same key)

theorem getStop_iff {same : CString → Bool} {s : Slot CString (Option V)} :
    getStop same s ↔ s = .never ∨ s.holds same := by
  cases s <;> simp [getStop, Slot.holds]

theorem putStop_of_get_stop {same : CString → Bool} {s : Slot CString (Option V)}
    (h : getStop same s) : putStop same s := by
  cases s with
  | never => rfl
  | deleted => rfl
  | live k v => exact h

theorem get_ends_iff {k : Nat} (hwhole : Whole map k) :
    (∃ r, Returns (fun fuel => hashmap_get fuel (some map) (some key)) r) ↔
      ∃ s ∈ map.table, s = .never ∨ s.holds (map.same key) := by
  simp only [← getStop_iff]
  constructor
  · rintro ⟨r, h⟩
    obtain ⟨n, s, hstops, -⟩ := get_returns_stops.mp h
    exact ⟨s, List.mem_of_getElem? hstops.slot, hstops.found⟩
  · rintro ⟨s, hs, hstop⟩
    obtain ⟨n, e, hfinds⟩ := exists_finds hwhole hs hstop key
    exact ⟨_, get_returns.mpr ⟨n, e, hfinds, rfl⟩⟩

theorem put_ends {k : Nat} (hwhole : Whole map k) (hk : k ≤ 58)
    (h : ∃ s ∈ map.table, s = .never ∨ s.holds (map.same key)) (malloc : Malloc) (value : Option V) :
    ∃ r, Returns (fun fuel => hashmap_put fuel malloc (some map) (some key) value) r := by
  obtain ⟨map1, hresized, k1, hwhole1, s, hs, hstop⟩ : ∃ map1, Resized malloc map map1 ∧
      ∃ k1, Whole map1 k1 ∧ ∃ s ∈ map1.table, putStop (map1.same key) s := by
    obtain ⟨s, hs, hstop⟩ := h
    have hold : ∃ k1, Whole map k1 ∧ ∃ s ∈ map.table, putStop (map.same key) s :=
      ⟨k, hwhole, s, hs, putStop_of_get_stop (getStop_iff.mpr hstop)⟩
    unfold Resized
    split
    · obtain ⟨map1, hreturns, rfl | ⟨-, hwhole1, -, hnever⟩⟩ := hashmap_resize_returns hwhole hk malloc
      · exact ⟨map1, hreturns, hold⟩
      · exact ⟨map1, hreturns, k + 1, hwhole1, _, hnever, rfl⟩
    · exact ⟨map, rfl, hold⟩
  obtain ⟨n, e, hfinds⟩ := exists_finds hwhole1 hs hstop key
  exact ⟨_, hashmap_put_returns.mpr ⟨map1, hresized, n, e, hfinds, rfl, rfl⟩⟩

theorem Shape.whole_of_ends (hshape : Shape map) (h : AlwaysEnds map) :
    ∃ k ≤ 58, Whole map k := by
  rcases hshape with ⟨k, hk, hwhole⟩ | ⟨k, -, hentrys, -⟩ | ⟨hsize, hlength⟩
  · exact ⟨k, hk, hwhole⟩
  · obtain ⟨⟨r, hget⟩, -⟩ := h keyA
    obtain ⟨n, e, hfinds, -⟩ := get_returns.mp hget
    exact absurd hentrys hfinds.entrys_ne
  · obtain ⟨⟨r, hget⟩, -⟩ := h keyA
    obtain ⟨n, e, hfinds, -⟩ := get_returns.mp hget
    -- With the size 0 the first index is the hash itself, which is past the 512 entries.
    have hlt := hfinds.start_lt
    rw [table_length, hlength, hsize] at hlt
    exact absurd hlt (by decide)

/-- In a reachable map all gets and puts of keys end exactly when their loops have a slot to end at. -/
theorem always_ends_iff {size : ulong} {compare : CString → CString → Int} (hsize : PowerOfTwo size)
    (h : Reachable size compare map) : AlwaysEnds map ↔ HasEnds map := by
  have hshape := h.shape hsize
  constructor
  · intro hends
    obtain ⟨k, -, hwhole⟩ := hshape.whole_of_ends hends
    exact ⟨by rw [hwhole.length, hwhole.size], fun key => (get_ends_iff hwhole).mp (hends key).1⟩
  · rintro ⟨hlength, hslot⟩ key
    obtain ⟨k, hk, hwhole⟩ := hshape.whole_of_length hlength
    exact ⟨(get_ends_iff hwhole).mpr (hslot key), put_ends hwhole hk (hslot key)⟩

theorem always_ends_iff_sample : AlwaysEnds mapA := by
  refine (always_ends_iff (Or.inr ⟨2, rfl⟩) mapA_reachable).mpr ⟨rfl, ?_⟩
  intro key
  exact ⟨.never, by decide, Or.inl rfl⟩

/-- A map of size 1 that holds a key ends no get of another. -/
theorem full_never_ends : ∃ map0 map : hashmap Nat,
    hashmap_new mallocAll 1 compareString = some map0 ∧
    Run Step map0 [.put mallocAll (some keyA) (some 1)] map ∧
    ¬ ∃ r, Returns (fun fuel => hashmap_get fuel (some map) (some keyE)) r := by
  refine ⟨_, _, rfl, Run.of_foldlM step_of_step? rfl, ?_⟩
  intro h
  obtain ⟨s, hs, hend⟩ := (get_ends_iff (k := 0) ⟨rfl, rfl⟩).mp h
  obtain rfl := List.mem_singleton.mp hs
  rcases hend with hend | hend
  · cases hend
  · cases hend

end Akio.Hashmap
