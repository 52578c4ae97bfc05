import Akio.Hashmap.Probe

/-!
# Calls of `hashmap_put` and `_hashmap_resize`

The two call each other. A larger bound does not change a call that returned, so a call returns when
the calls it makes do.
-/

namespace Akio.Hashmap

open Outcome OpenAddress

variable {V : Type}

/-! ## Larger bounds -/

theorem rehash_mono {put put' : hashmap V → CString → Option V → Outcome (hashmap V × Int)}
    (hput : ∀ m k v r, put m k v = .done r → put' m k v = .done r) {map : hashmap V} {fuel fuel' : Nat}
    (hle : fuel ≤ fuel') {i olduse : ulong} {newmap : hashmap V} {r : hashmap V × ulong}
    (h : rehash put map fuel i olduse newmap = .done r) :
    rehash put' map fuel' i olduse newmap = .done r := by
  induction fuel generalizing fuel' i olduse newmap with
  | zero => cases h
  | succ fuel ih =>
    obtain ⟨fuel', rfl⟩ : ∃ n, fuel' = n + 1 := ⟨fuel' - 1, by omega⟩
    unfold rehash at h ⊢
    split at h
    · rw [if_pos ‹_›]
      obtain ⟨e, he, h⟩ := bind_eq_done.mp h
      rw [he, done_bind]
      split at h
      · obtain ⟨⟨new, b⟩, hnew, h⟩ := bind_eq_done.mp h
        rw [hput _ _ _ _ hnew]
        exact ih (by omega) h
      · exact ih (by omega) h
    · rw [if_neg ‹_›]
      exact h

theorem hashmap_resize_mono {put put' : hashmap V → CString → Option V → Outcome (hashmap V × Int)}
    (hput : ∀ m k v r, put m k v = .done r → put' m k v = .done r) {malloc : Malloc} {map : hashmap V}
    {fuel fuel' : Nat} (hle : fuel ≤ fuel') {r : hashmap V}
    (h : hashmap_resize put fuel malloc map = .done r) :
    hashmap_resize put' fuel' malloc map = .done r := by
  cases hnew : (hashmap_new malloc (map.size <<< 1) map.compare : Option (hashmap V)) with
  | none => simpa only [hashmap_resize, hnew] using h
  | some newmap =>
    simp only [hashmap_resize, hnew] at h ⊢
    obtain ⟨a, ha, h⟩ := bind_eq_done.mp h
    rw [rehash_mono hput hle ha]
    exact h

theorem putNonnull_mono {malloc : Malloc} {fuel fuel' : Nat} (hle : fuel ≤ fuel') :
    ∀ (map : hashmap V) key value r, putNonnull malloc fuel map key value = .done r →
      putNonnull malloc fuel' map key value = .done r := by
  induction fuel generalizing fuel' with
  | zero => intro map key value r h; cases h
  | succ fuel ih =>
    intro map key value r h
    obtain ⟨fuel', rfl⟩ : ∃ n, fuel' = n + 1 := ⟨fuel' - 1, by omega⟩
    have hle := Nat.le_of_succ_le_succ hle
    by_cases hload : map.use * 3 ≥ map.size * 2
    · simp only [putNonnull, if_pos hload] at h ⊢
      obtain ⟨map1, h1, h⟩ := bind_eq_done.mp h
      rw [hashmap_resize_mono (ih hle) hle h1]
      exact probeLoop_mono hle h
    · simp only [putNonnull, if_neg hload] at h ⊢
      exact probeLoop_mono hle h

/-! ## Calls that return -/

/-- The map that `hashmap_put` goes on with after its check of the load. -/
def Resized (malloc : Malloc) (map map1 : hashmap V) : Prop :=
  if map.use * 3 ≥ map.size * 2 then
    Returns (fun fuel => hashmap_resize (putNonnull malloc fuel) fuel malloc map) map1
  else map1 = map

theorem putNonnull_returns {malloc : Malloc} {map map' : hashmap V} {key : CString} {value : Option V}
    {b : Int} :
    Returns (fun fuel => putNonnull malloc fuel map key value) (map', b) ↔
      ∃ map1, Resized malloc map map1 ∧
        ∃ n e, Finds map1.entrys map1.size (putStop (map1.same key)) key n e ∧
          map' = stored map1 (path map1.size key n) e key value ∧ b = 1 := by
  simp only [← put_loop_returns]
  by_cases hload : map.use * 3 ≥ map.size * 2
  · simp only [Resized, if_pos hload]
    constructor
    · rintro ⟨fuel | fuel, h⟩
      · cases h
      · simp only [putNonnull, if_pos hload] at h
        obtain ⟨map1, h1, h⟩ := bind_eq_done.mp h
        exact ⟨map1, ⟨fuel, h1⟩, fuel, h⟩
    · rintro ⟨map1, ⟨fuel, h1⟩, fuel', h⟩
      refine ⟨max fuel fuel' + 1, ?_⟩
      have hresize := hashmap_resize_mono (putNonnull_mono (Nat.le_max_left fuel fuel'))
        (Nat.le_max_left fuel fuel') h1
      simp only [putNonnull, if_pos hload, hresize, done_bind]
      exact probeLoop_mono (Nat.le_max_right fuel fuel') h
  · simp only [Resized, if_neg hload, exists_eq_left]
    constructor
    · rintro ⟨fuel | fuel, h⟩
      · cases h
      · simp only [putNonnull, if_neg hload, pure_eq, done_bind] at h
        exact ⟨fuel, h⟩
    · rintro ⟨fuel, h⟩
      refine ⟨fuel + 1, ?_⟩
      simp only [putNonnull, if_neg hload, pure_eq, done_bind]
      exact h

section Rehash

variable {malloc : Malloc} {map new new' : hashmap V} {i olduse : ulong} {r : hashmap V × ulong}
  {e : map_entry V} {key : CString}

/-- The `for` loop of `_hashmap_resize` returns `r`. -/
abbrev Rehashes (malloc : Malloc) (map : hashmap V) (i olduse : ulong) (new : hashmap V)
    (r : hashmap V × ulong) : Prop :=
  Returns (fun fuel => rehash (putNonnull malloc fuel) map fuel i olduse new) r

theorem Rehashes.stop (h : ¬ (olduse > 0 ∧ i < map.size)) :
    Rehashes malloc map i olduse new (new, olduse) :=
  ⟨1, by simp only [rehash, if_neg h, pure_eq]⟩

theorem Rehashes.skip (h : olduse > 0 ∧ i < map.size) (he : map.entrys[i.toNat]? = some e)
    (hkey : e.key = none) (hrest : Rehashes malloc map (i + 1) olduse new r) :
    Rehashes malloc map i olduse new r := by
  obtain ⟨fuel, hrest⟩ := hrest
  refine ⟨fuel + 1, ?_⟩
  simp only [rehash, if_pos h, he, ofOption_some, done_bind, hkey]
  exact rehash_mono (putNonnull_mono (Nat.le_succ fuel)) (Nat.le_refl fuel) hrest

theorem Rehashes.move (h : olduse > 0 ∧ i < map.size) (he : map.entrys[i.toNat]? = some e)
    (hkey : e.key = some key)
    (hput : Returns (fun fuel => putNonnull malloc fuel new key e.value) (new', 1))
    (hrest : Rehashes malloc map (i + 1) (olduse - 1) new' r) : Rehashes malloc map i olduse new r := by
  obtain ⟨fuel, hput⟩ := hput
  obtain ⟨fuel', hrest⟩ := hrest
  refine ⟨max fuel fuel' + 1, ?_⟩
  have hput' := putNonnull_mono (Nat.le_succ_of_le (Nat.le_max_left fuel fuel')) _ _ _ _ hput
  simp only [rehash, if_pos h, he, ofOption_some, done_bind, hkey, hput']
  exact rehash_mono (putNonnull_mono (Nat.le_succ_of_le (Nat.le_max_right fuel fuel')))
    (Nat.le_max_right fuel fuel') hrest

end Rehash

end Akio.Hashmap
