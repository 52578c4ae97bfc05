import Akio.Hashmap.PutGet

/-!
# The counter `use` over runs

A put of a new key adds one to `use` and a delete takes nothing off, so `use` is the number of live slots
until the first delete, and more from then on. `_hashmap_resize` installs its new table only in the first
case, where no key has two slots. What a put stores is what a get finds, and the searches for other keys
stay conclusive.
-/

namespace Akio.Hashmap

open Outcome OpenAddress

variable {V : Type} {malloc : Malloc} {map map' map1 new : hashmap V} {k n : Nat} {key : CString}
  {value : Option V} {e : map_entry V} {call : Call V}

/-- What `n` calls make of a table. -/
structure Tallied (map : hashmap V) (n : Nat) : Prop where
  noGap : NoGap (path map.size) map.table
  count : Clean map ∨ map.table.countP Slot.isLive < map.use.toNat
  use_le : map.use.toNat ≤ n

/-- The table after `_hashmap_resize` took effect. -/
structure Moved (map map1 : hashmap V) : Prop where
  old : Clean map
  new : Clean map1
  compare : map1.compare = map.compare
  use : map1.use = map.use
  live : ∀ key v, LiveIn map1.table key v ↔ LiveIn map.table key v
  ends : ∀ key r, Returns (fun fuel => hashmap_get fuel (some map) (some key)) r →
    ∃ r', Returns (fun fuel => hashmap_get fuel (some map1) (some key)) r'

theorem Tallied.count_le (h : Tallied map n) : map.table.countP Slot.isLive ≤ map.use.toNat := by
  rcases h.count with hclean | hlt
  · exact Nat.le_of_eq hclean.use_eq.symm
  · exact Nat.le_of_lt hlt

theorem not_live_of_count (h : map.table.countP Slot.isLive = 0) (key : CString) (v : Option V) :
    ¬ LiveIn map.table key v := by
  rintro ⟨i, hi⟩
  exact List.countP_eq_zero.mp h _ (List.mem_of_getElem? hi) rfl

/-! ## Growing -/

theorem hashmap_resize_over (hwhole : Whole map k) (hk : k ≤ 58)
    (hover : map.table.countP Slot.isLive < map.use.toNat) (malloc : Malloc) :
    Returns (fun fuel => hashmap_resize (putNonnull malloc fuel) fuel malloc map) map := by
  cases hnew : (hashmap_new malloc (map.size <<< 1) map.compare : Option (hashmap V)) with
  | none => exact hashmap_resize_none hnew
  | some new =>
    have hk : k ≤ 57 := new_fits hwhole hk hnew
    have htake : ∀ i, (map.table.take i).countP Slot.isLive ≤ map.table.countP Slot.isLive :=
      fun i => (List.take_sublist i _).countP_le
    obtain ⟨j, new', olduse, hloop, ⟨-, hsum⟩, -⟩ := rehash_rule malloc
      (I := fun i olduse new => Moving map k i new ∧
        olduse.toNat + (map.table.take i).countP Slot.isLive = map.use.toNat) hwhole map.use
      (by
        rintro i olduse new e he hkey ⟨hmoving, hsum⟩
        have hs : map.table[i]? = some e.slot := by simp [hashmap.table, he]
        refine ⟨hmoving.succ, ?_⟩
        rw [countP_take_succ hs, not_live_of_key hkey]
        exact hsum)
      (by
        rintro i olduse new e key hi he hkey hpos ⟨hmoving, hsum⟩
        obtain ⟨m, e', -, hreturns, hmoving'⟩ := hmoving.put malloc hi hk key e.value
        have hs : map.table[i]? = some (.live key e.value) := by
          simp [hashmap.table, he, slot_of_key hkey]
        refine ⟨_, hreturns, hmoving', ?_⟩
        rw [countP_take_succ hs, ← hsum]
        simp only [Slot.isLive, if_true]
        bv_omega)
      (Nat.zero_le _) ⟨Moving.of_new hwhole hk hnew, by simp⟩
    have hleft : olduse ≠ 0 := by
      rintro rfl
      have := htake j
      simp only [BitVec.ofNat_eq_ofNat, BitVec.toNat_ofNat, Nat.zero_mod, Nat.zero_add] at hsum
      omega
    have hreturns := hashmap_resize_some hnew hloop
    rwa [if_neg hleft] at hreturns

theorem moved_of_stop (hclean : Clean map) (huse : map.use = 0)
    (hnot : map.entrys = [] ∨ map.size = 0 ∧ map.entrys.length = 512)
    (hnew : hashmap_new malloc (map.size <<< 1) map.compare = some new) :
    Moved map { map with entrys := new.entrys, size := map.size <<< 1 } := by
  have htable := new_table hnew
  have hnone : map.table.countP Slot.isLive = 0 := by
    rw [← hclean.use_eq, huse]
    rfl
  refine ⟨hclean, ⟨tidy_of_replicate htable, ?_, ?_⟩, rfl, rfl, ?_, ?_⟩
  · intro hmem
    cases List.eq_of_mem_replicate (htable ▸ hmem)
  · show map.use.toNat = new.table.countP Slot.isLive
    rw [huse, htable, List.countP_replicate]
    rfl
  · intro key v
    exact iff_of_false (fun h => not_liveIn_replicate (htable ▸ h)) (not_live_of_count hnone key v)
  · intro key r h
    obtain ⟨m, e, hfinds, -⟩ := get_returns.mp h
    rcases hnot with hentrys | ⟨hsize, h512⟩
    · exact absurd hentrys hfinds.entrys_ne
    · -- The first slot is in both blocks, and in the new one it was never used.
      have hlt := hfinds.start_lt
      have hzero : map.size <<< 1 = 0 := by
        rw [hsize]
        rfl
      rw [table_length, h512, hsize] at hlt
      rw [hzero, wrapped_bytes] at htable
      refine ⟨none, get_returns_stops.mpr ⟨0, .never, ⟨?_, ?_, rfl⟩, rfl⟩⟩
      · intro j hj
        omega
      · show new.table[path (map.size <<< 1) key 0]? = some .never
        rw [hzero, htable]
        exact List.getElem?_replicate_of_lt hlt

theorem moved_of_clean (hlawful : Lawful map) (hclean : Clean map) (hwhole : Whole map k) (hk : k ≤ 58)
    (hnew : hashmap_new malloc (map.size <<< 1) map.compare = some new) :
    ∃ map1, Returns (fun fuel => hashmap_resize (putNonnull malloc fuel) fuel malloc map) map1 ∧
      Moved map map1 := by
  obtain ⟨map1, hreturns, -, hwhole1, hcompare, hclean1, huse, hlive⟩ :=
    hashmap_resize_clean hlawful hclean hwhole hk hnew
  refine ⟨map1, hreturns, hclean, hclean1, hcompare, huse, hlive, ?_⟩
  intro key r _
  have hcount := List.countP_le_length (p := Slot.isLive) (l := map.table)
  have hpos := Nat.two_pow_pos k
  rw [← hclean.use_eq, table_length, hwhole.length, ← huse] at hcount
  have hnever : .never ∈ map1.table := by
    apply has_never hclean1
    rw [table_length, hwhole1.length, Nat.pow_succ]
    omega
  obtain ⟨n, e, hfinds⟩ := exists_finds hwhole1 hnever
    (show getStop (map1.same key) .never = true from rfl) key
  exact ⟨_, get_returns.mpr ⟨n, e, hfinds, rfl⟩⟩

theorem hashmap_resize_moved (hshape : Shape map) (hlawful : Lawful map) (h : Tallied map n)
    (malloc : Malloc) :
    ∃ map1, Returns (fun fuel => hashmap_resize (putNonnull malloc fuel) fuel malloc map) map1 ∧
      (map1 = map ∨ Moved map map1) := by
  have hstop : (map.use = 0 ∨ map.size = 0) →
      (map.entrys = [] ∨ map.size = 0 ∧ map.entrys.length = 512) →
      ∃ map1, Returns (fun fuel => hashmap_resize (putNonnull malloc fuel) fuel malloc map) map1 ∧
        (map1 = map ∨ Moved map map1) := by
    intro hzero hnot
    obtain ⟨map1, hreturns, heq | ⟨new, hnew, rfl, huse⟩⟩ := hashmap_resize_stop hzero malloc
    · exact ⟨map1, hreturns, Or.inl heq⟩
    · have hclean : Clean map := by
        refine h.count.resolve_right ?_
        rw [huse]
        exact Nat.not_lt_zero _
      exact ⟨_, hreturns, Or.inr (moved_of_stop hclean huse hnot hnew)⟩
  rcases hshape with ⟨k, hk, hwhole⟩ | ⟨k, -, hentrys, huse⟩ | ⟨hsize, hlength⟩
  · rcases h.count with hclean | hover
    · cases hnew : (hashmap_new malloc (map.size <<< 1) map.compare : Option (hashmap V)) with
      | none => exact ⟨map, hashmap_resize_none hnew, Or.inl rfl⟩
      | some new =>
        obtain ⟨map1, hreturns, hmoved⟩ := moved_of_clean hlawful hclean hwhole hk hnew
        exact ⟨map1, hreturns, Or.inr hmoved⟩
    · exact ⟨map, hashmap_resize_over hwhole hk hover malloc, Or.inl rfl⟩
  · exact hstop (Or.inl huse) (Or.inl hentrys)
  · exact hstop (Or.inr hsize) (Or.inr ⟨hsize, hlength⟩)

theorem Resized.moved (hshape : Shape map) (hlawful : Lawful map) (h : Tallied map n)
    (hresized : Resized malloc map map1) : map1 = map ∨ Moved map map1 := by
  obtain ⟨new, hreturns, hnew⟩ := hashmap_resize_moved hshape hlawful h malloc
  rcases hresized.eq_or hreturns with rfl | rfl
  · exact Or.inl rfl
  · exact hnew

theorem Moved.tallied (h : Moved map map1) (hcount : Tallied map n) : Tallied map1 n := by
  refine ⟨h.new.tidy.noGap, Or.inl h.new, ?_⟩
  rw [h.use]
  exact hcount.use_le

/-! ## One call -/

theorem Tallied.stored (hlawful : Lawful map) (h : Tallied map n) (hn : n + 1 < 2 ^ 64)
    (hfinds : Finds map.entrys map.size (putStop (map.same key)) key k e) :
    Tallied (stored map (path map.size key k) e key value) (n + 1) := by
  have huse := h.use_le
  have hsucc : (map.use + 1).toNat = map.use.toNat + 1 := by
    rw [BitVec.toNat_add, show (1 : ulong).toNat = 1 from rfl, Nat.mod_eq_of_lt (by omega)]
  refine ⟨?_, ?_, ?_⟩
  · rw [stored_size]
    exact noGap_stored value hlawful h.noGap hfinds
  · refine h.count.imp (fun hclean => hclean.stored hlawful hfinds (by omega)) ?_
    intro hlt
    rw [stored_count hlawful hfinds, stored_use]
    split
    · exact hlt
    · rw [hsucc]
      omega
  · rw [stored_use]
    split
    · omega
    · rw [hsucc]
      omega

theorem Tallied.unlinked (h : Tallied map n)
    (hslot : map.table[path map.size key k]? = some e.slot) :
    Tallied (unlinked map (path map.size key k) e) n := by
  by_cases hlive : e.slot.isLive
  · have huse : (Hashmap.unlinked map (path map.size key k) e).use = map.use := by
      unfold Hashmap.unlinked
      rw [if_pos hlive]
    obtain ⟨hlt, hget⟩ := List.getElem?_eq_some_iff.mp hslot
    have hpos := List.countP_pos_iff.mpr ⟨_, List.mem_of_getElem? hslot, hlive⟩
    have hle := h.count_le
    refine ⟨?_, Or.inr ?_, ?_⟩
    · rw [unlinked_size, unlinked_table hlive]
      exact h.noGap.remove
    · rw [huse, unlinked_table hlive, List.countP_set hlt, hget, if_pos hlive]
      simp only [Slot.isLive, Bool.false_eq_true, if_false]
      omega
    · rw [huse]
      exact h.use_le
  · unfold Hashmap.unlinked
    rw [if_neg hlive]
    exact h

theorem Tallied.succ (h : Tallied map n) : Tallied map (n + 1) :=
  ⟨h.noGap, h.count, Nat.le_succ_of_le h.use_le⟩

theorem Tallied.step (hshape : Shape map) (hlawful : Lawful map) (h : Tallied map n)
    (hn : n + 1 < 2 ^ 64) (hstep : Step map call map') : Tallied map' (n + 1) := by
  rcases hstep.cases with rfl | ⟨malloc, key, value, -, map1, hresized, m, e, hfinds, rfl⟩ |
    ⟨key, -, m, e, hfinds, rfl⟩
  · exact h.succ
  · rcases hresized.moved hshape hlawful h with rfl | hmoved
    · exact h.stored hlawful hn hfinds
    · exact (hmoved.tallied h).stored (hlawful.congr hmoved.compare) hn hfinds
  · exact (h.unlinked hfinds.stops.slot).succ

/-! ## Runs -/

theorem tallied_of_run {size : ulong} {compare : CString → CString → Int} (hsize : PowerOfTwo size)
    (hlawful : ∀ a b, compare a b = 0 ↔ a = b) {malloc₀ : Malloc} {map0 : hashmap V}
    (hnew : hashmap_new malloc₀ size compare = some map0) {calls : List (Call V)}
    (hrun : Run Step map0 calls map) (hfew : calls.length < 2 ^ 60) :
    Shape map ∧ Lawful map ∧ Tallied map calls.length := by
  have hclean := Clean.of_new hnew
  have hinv : calls.length < 2 ^ 60 → Shape map ∧ Lawful map ∧ Tallied map calls.length := by
    refine Run.history (P := fun calls map => calls.length < 2 ^ 60 →
      Shape map ∧ Lawful map ∧ Tallied map calls.length) ?_ ?_ hrun
    · intro _
      refine ⟨new_shape hsize hnew, ?_, hclean.tidy.noGap, Or.inl hclean, ?_⟩
      · obtain ⟨-, rfl⟩ := hashmap_new_eq_some.mp hnew
        exact hlawful
      · obtain ⟨-, rfl⟩ := hashmap_new_eq_some.mp hnew
        exact Nat.zero_le _
    · intro calls map call map' _ ih hstep hfew
      rw [List.length_append, List.length_singleton] at hfew ⊢
      obtain ⟨hshape, hlawful, htallied⟩ := ih (by omega)
      obtain ⟨hshape', hcompare⟩ := hstep.shape hshape
      exact ⟨hshape', hlawful.congr hcompare, htallied.step hshape hlawful (by omega) hstep⟩
  exact hinv hfew

end Akio.Hashmap
