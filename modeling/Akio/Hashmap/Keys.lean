import Akio.Hashmap.Runs

/-!
# One slot for each key

A put stops at the first slot without a key, deleted ones included, and does not look whether its key
is live further on. So a key gets a second slot when a deleted slot comes before its slot.
-/

namespace Akio.Hashmap

open Outcome OpenAddress

variable {V : Type} {malloc : Malloc} {map map' map1 : hashmap V} {key : CString} {value : Option V}

/-- The key is in the table, and its path meets a deleted slot before any slot of the key. -/
def Shadowed (map : hashmap V) (key : CString) : Prop :=
  (∃ v, LiveIn map.table key v) ∧
    ∃ n, map.table[path map.size key n]? = some .deleted ∧
      ∀ j ≤ n, ∀ v, map.table[path map.size key j]? ≠ some (.live key v)

/-- No put of a key behind a deleted slot. -/
def Unshadowed (map : hashmap V) : Call V → Prop
  | .put _ (some key) _ => ¬ Shadowed map key
  | _ => True

/-- Two slots whose keys compare equal are the same slot. -/
def KeysUnique (map : hashmap V) : Prop :=
  ∀ (i j : Nat) e e' a b, map.entrys[i]? = some e → map.entrys[j]? = some e' → e.key = some a →
    e'.key = some b → map.compare a b = 0 → i = j

/-- `hashmap_map` calls its function on no key twice. -/
def ShowsOnce (map : hashmap V) : Prop :=
  ∀ fuel func map' r shown, hashmap_map fuel (some map) func = .done (map', r, shown) →
    (shown.map Prod.fst).Nodup

/-! ## The step -/

theorem Finds.alone_of_unshadowed {n : Nat} {e : map_entry V} (hlawful : Lawful map)
    (hfinds : Finds map.entrys map.size (putStop (map.same key)) key n e) (hdel : e.slot = .deleted)
    (h : ¬ Shadowed map key) : Alone map key (path map.size key n) := by
  intro j w hj
  refine absurd ⟨⟨w, j, hj⟩, n, hdel ▸ hfinds.stops.slot, ?_⟩ h
  intro m hm v hlive
  rcases Nat.lt_or_eq_of_le hm with hlt | rfl
  · obtain ⟨s, hs, hno⟩ := hfinds.passes m hlt
    obtain rfl := Option.some.inj (hs.symm.trans hlive)
    rw [putStop, (same_iff hlawful).mpr rfl] at hno
    cases hno
  · have hslot := hfinds.stops.slot
    rw [hdel, hlive] at hslot
    cases hslot

theorem tidy_unlinked {n : Nat} {e : map_entry V} (htidy : Tidy map) :
    Tidy (unlinked map n e) := by
  by_cases hlive : e.slot.isLive
  · refine ⟨?_, ?_⟩
    · rw [unlinked_size, unlinked_table hlive]
      exact htidy.noGap.remove
    · rw [unlinked_table hlive]
      exact htidy.unique.remove
  · unfold unlinked
    rw [if_neg hlive]
    exact htidy

theorem Step.tidy {call : Call V} (h : Step map call map') (hok : Unshadowed map call)
    (hshape : Shape map) (hlawful : Lawful map) (htidy : Tidy map) : Tidy map' := by
  rcases h.cases with rfl | ⟨malloc, key, value, rfl, map1, hresized, n, e, hfinds, rfl⟩ |
    ⟨key, -, n, e, -, rfl⟩
  · exact htidy
  · rcases hresized.tidy hshape hlawful htidy with rfl | ⟨htidy1, hclean⟩
    · refine tidy_stored value hlawful htidy hfinds ?_
      by_cases hdel : e.slot = .deleted
      · exact hfinds.alone_of_unshadowed hlawful hdel hok
      · exact hfinds.alone hlawful htidy hdel
    · have hlawful1 : Lawful map1 := by
        rcases hresized.shape hshape with rfl | ⟨-, hcompare, -⟩
        · exact hlawful
        · exact hlawful.congr hcompare
      refine tidy_stored value hlawful1 htidy1 hfinds (hfinds.alone hlawful1 htidy1 ?_)
      intro hdel
      exact hclean (hdel ▸ List.mem_of_getElem? hfinds.stops.slot)
  · exact tidy_unlinked htidy

/-! ## `hashmap_map` -/

theorem mapLoop_keys {func : CString → Option V → Option V} {size : ulong} {fuel : Nat} {i use : ulong}
    {entrys entrys' : List (map_entry V)} {shown shown' : List (CString × Option V)}
    (hi : shown.map Prod.fst = ((entrys.map map_entry.key).take i.toNat).filterMap id)
    (h : mapLoop func size fuel i use entrys shown = .done (entrys', shown')) :
    ∃ n, shown'.map Prod.fst = ((entrys.map map_entry.key).take n).filterMap id := by
  induction fuel generalizing i use entrys shown with
  | zero => cases h
  | succ fuel ih =>
    unfold mapLoop at h
    split at h
    · rename_i hgo
      have hsucc : (i + 1).toNat = i.toNat + 1 := by
        have := size.isLt
        have := BitVec.lt_def.mp hgo.2
        rw [BitVec.toNat_add, show (1 : ulong).toNat = 1 from rfl, Nat.mod_eq_of_lt (by omega)]
      obtain ⟨e, he, h⟩ := bind_eq_done.mp h
      have he := ofOption_eq_done.mp he
      have htake : ((entrys.map map_entry.key).take (i + 1).toNat).filterMap id =
          ((entrys.map map_entry.key).take i.toNat).filterMap id ++ e.key.toList := by
        rw [hsucc, List.take_add_one, List.getElem?_map, he, List.filterMap_append]
        cases hkey : e.key <;> simp [hkey]
      split at h
      · rename_i key hkey
        have hkeys : (entrys.set i.toNat { e with value := func key e.value }).map map_entry.key =
            entrys.map map_entry.key := by
          obtain ⟨hlt, rfl⟩ := List.getElem?_eq_some_iff.mp he
          rw [List.map_set, ← List.getElem_map map_entry.key (h := by simpa using hlt)]
          exact List.set_getElem_self _
        obtain ⟨n, hn⟩ := ih (by rw [hkeys, htake, List.map_append, hi, hkey]; rfl) h
        exact ⟨n, hkeys ▸ hn⟩
      · rename_i hkey
        exact ih (by rw [htake, hi, hkey, Option.toList_none, List.append_nil]) h
    · simp only [pure_eq, done.injEq, Prod.mk.injEq] at h
      exact ⟨i.toNat, h.2 ▸ hi⟩

theorem keys_nodup (hunique : Unique map.table) :
    ((map.entrys.map map_entry.key).filterMap id).Nodup := by
  rw [List.Nodup, List.pairwise_filterMap, List.pairwise_iff_getElem]
  intro i j hi hj hlt a ha b hb hab
  subst hab
  simp only [id, List.getElem_map] at ha hb
  rw [List.length_map] at hi hj
  have hslot : ∀ (n : Nat) (hn : n < map.entrys.length), map.entrys[n].key = some a →
      map.table[n]? = some (.live a map.entrys[n].value) := by
    intro n hn hkey
    rw [hashmap.table, List.getElem?_map, List.getElem?_eq_getElem hn, Option.map_some,
      slot_of_key hkey]
  exact absurd (hunique i j a _ _ (hslot i hi ha) (hslot j hj hb)) (by omega)

theorem Tidy.showsOnce (htidy : Tidy map) : ShowsOnce map := by
  intro fuel func map' r shown h
  cases func with
  | none =>
    simp only [hashmap_map, pure_eq, done.injEq, Prod.mk.injEq] at h
    rw [← h.2.2]
    exact List.nodup_nil
  | some func =>
    obtain ⟨⟨entrys, shown'⟩, hloop, h⟩ := bind_eq_done.mp h
    simp only [pure_eq, done.injEq, Prod.mk.injEq] at h
    obtain ⟨-, -, rfl⟩ := h
    obtain ⟨n, hn⟩ := mapLoop_keys (by simp) hloop
    rw [hn]
    exact ((List.take_sublist n _).filterMap id).nodup (keys_nodup htidy.unique)

theorem Tidy.keysUnique (hlawful : Lawful map) (htidy : Tidy map) : KeysUnique map := by
  intro i j e e' a b hi hj ha hb hab
  obtain rfl := (hlawful a b).mp hab
  refine htidy.unique i j a e.value e'.value ?_ ?_
  · rw [hashmap.table, List.getElem?_map, hi, Option.map_some, slot_of_key ha]
  · rw [hashmap.table, List.getElem?_map, hj, Option.map_some, slot_of_key hb]

/-! ## Runs -/

/-- In every run without a put of a key behind a deleted slot, no key has two slots. -/
theorem keys_unique_of_run {size : ulong} {compare : CString → CString → Int} (hsize : PowerOfTwo size)
    (hlawful : ∀ a b, compare a b = 0 ↔ a = b) {malloc : Malloc} {map0 map : hashmap V}
    (hnew : hashmap_new malloc size compare = some map0) {calls : List (Call V)}
    (hrun : Run (fun map call map' => Unshadowed map call ∧ Step map call map') map0 calls map) :
    KeysUnique map ∧ ShowsOnce map := by
  have hinv : Shape map ∧ Lawful map ∧ Tidy map := by
    refine hrun.invariant (P := fun map => Shape map ∧ Lawful map ∧ Tidy map) ?_ ?_
    · rintro map call map' ⟨hshape, hlawful, htidy⟩ ⟨hok, hstep⟩
      obtain ⟨hshape', hcompare⟩ := hstep.shape hshape
      exact ⟨hshape', hlawful.congr hcompare, hstep.tidy hok hshape hlawful htidy⟩
    · refine ⟨new_shape hsize hnew, ?_, tidy_of_replicate (new_table hnew)⟩
      obtain ⟨-, rfl⟩ := hashmap_new_eq_some.mp hnew
      exact hlawful
  obtain ⟨-, hlawful, htidy⟩ := hinv
  exact ⟨htidy.keysUnique hlawful, htidy.showsOnce⟩

theorem key_of_live {v : Option V} (h : LiveIn map.table key v) : some key ∈ map.entrys.map map_entry.key := by
  obtain ⟨i, hi⟩ := h
  rw [hashmap.table, List.getElem?_map, Option.map_eq_some_iff] at hi
  obtain ⟨e, he, hslot⟩ := hi
  refine List.mem_map.mpr ⟨e, List.mem_of_getElem? he, ?_⟩
  cases hkey : e.key with
  | none =>
    have hdead := not_live_of_key hkey
    rw [hslot] at hdead
    cases hdead
  | some k =>
    rw [slot_of_key hkey] at hslot
    cases hslot
    rfl

theorem unshadowed_of_absent (h : some key ∉ map.entrys.map map_entry.key) :
    Unshadowed map (.put malloc (some key) value) := by
  rintro ⟨⟨v, hlive⟩, -⟩
  exact h (key_of_live hlive)

theorem mapAgain_run : Run (fun map call map' => Unshadowed map call ∧ Step map call map') map4
    [putA, putE, .delete (some keyA), putA] mapAgain := by
  have hstep : ∀ {map map' : hashmap Nat} {call : Call Nat}, step? map call = some map' →
      Unshadowed map call → Unshadowed map call ∧ Step map call map' :=
    fun h hok => ⟨hok, step_of_step? _ _ _ h⟩
  refine Run.cons_iff.mpr ⟨{ mapAE with use := 1, entrys := mapAE.entrys.set 2 ⟨none, none, 0⟩ },
    hstep rfl (unshadowed_of_absent (by decide)), ?_⟩
  refine Run.cons_iff.mpr ⟨mapAE, hstep rfl (unshadowed_of_absent (by decide)), ?_⟩
  refine Run.cons_iff.mpr ⟨{ mapAE with entrys := mapAE.entrys.set 0 ⟨none, some 1, TRUE⟩ },
    hstep rfl trivial, ?_⟩
  exact Run.nil.snoc (hstep rfl (unshadowed_of_absent (by decide)))

theorem keys_unique_of_run_sample : LiveIn mapAgain.table keyA (some 1) ∧
    LiveIn mapAgain.table keyE (some 2) ∧ KeysUnique mapAgain ∧ ShowsOnce mapAgain :=
  ⟨⟨0, rfl⟩, ⟨2, rfl⟩, keys_unique_of_run (Or.inr ⟨2, rfl⟩) compareString_lawful map4_new mapAgain_run⟩

/-- A deleted key makes room for a second slot of a key behind it. -/
theorem keys_doubled : ∃ (map : hashmap Nat) (shown : List (CString × Option Nat)),
    Run Step map4 [.put mallocAll (some keyA) (some 1), .put mallocAll (some keyE) (some 2),
      .delete (some keyA), .put mallocAll (some keyE) (some 3)] map ∧
    ¬ KeysUnique map ∧ hashmap_map 10 (some map) (some fun _ v => v) = .done (some map, 1, shown) ∧
    shown.map Prod.fst = [keyE, keyE] := by
  refine ⟨_, _, Run.of_foldlM step_of_step? rfl, ?_, rfl, rfl⟩
  intro h
  exact absurd (h 0 2 _ _ keyE keyE rfl rfl rfl rfl rfl) (by decide)

end Akio.Hashmap
