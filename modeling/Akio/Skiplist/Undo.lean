import Akio.Skiplist.Refine

/-!
# Deleting a key that was just inserted

The deletion unlinks the new node on the levels where the insertion linked it in, and the level is again
the greatest height of the nodes there were.
-/

namespace Akio.Skiplist

variable {K V : Type} {list list₁ list₂ : skiplist K V} {nodes nodes' : Store (skiplist_node K V)} {h p q d fuel : Nat}
  {l lo hi : List Nat} {key : K} {value : V}

/-- The counts of the list are as they were, and so are the nodes `ps` with all their pointers. -/
structure Restored (list list₂ : skiplist K V) (ps : List Nat) : Prop where
  header : list₂.header = list.header
  level : list₂.level = list.level
  length : list₂.length = list.length
  compare : list₂.compare = list.compare
  node : ∀ p ∈ ps, list₂.nodes.cell p = list.nodes.cell p

/-- A key that a search does not find is inserted and deleted again, and its value and the list come back. -/
def DeleteUndoes (list : skiplist K V) (ps : List Nat) : Prop :=
  ∀ key (value : Option V) level, 1 ≤ level → level ≤ SKIPLIST_MAXLEVEL → ∀ fuel > list.length,
    skiplist_search fuel (some list) (some key) = .done none →
      ∃ list₁ list₂ r, skiplist_insert fuel true level (some list) (some key) value = .done (some list₁, r) ∧
        r = (if value = none then 0 else 1) ∧
        skiplist_delete fuel (some list₁) (some key) = .done (some list₂, value) ∧ Restored list list₂ ps

/-! ## Nodes and their fields -/

theorem cell_congr (hlive : nodes.Live p) (hlive' : nodes'.Live p) (hk : keyOf nodes' p = keyOf nodes p)
    (hv : valueOf nodes' p = valueOf nodes p) (hh : height nodes' p = height nodes p)
    (hlink : ∀ i, linkAt nodes' i p = linkAt nodes i p) : nodes'.cell p = nodes.cell p := by
  obtain ⟨n, hn⟩ := Store.live_iff.mp hlive
  obtain ⟨n', hn'⟩ := Store.live_iff.mp hlive'
  unfold keyOf at hk
  unfold valueOf at hv
  unfold height at hh
  unfold linkAt at hlink
  simp only [Store.field_of_cell hn, Store.field_of_cell hn'] at hk hv hh hlink
  have hforward : n'.forward = n.forward := by
    apply List.ext_getElem hh
    intro i hi' hi
    have hjoin := hlink i
    rwa [List.getElem?_eq_getElem hi', List.getElem?_eq_getElem hi] at hjoin
  rw [hn, hn']
  cases n
  cases n'
  simp only at hk hv hforward
  rw [hk, hv, hforward]

theorem level_le_of_heights {l : List Nat} {h₂ : Nat} (hw : WellFormed list h l) (hw₂ : WellFormed list₂ h₂ l)
    (hheight : ∀ p ∈ l, height list₂.nodes p = height list.nodes p) : list₂.level ≤ list.level := by
  rcases hw₂.level_eq with hone | ⟨p, hp, hlevel⟩
  · rw [hone]
    exact hw.level_pos
  · rw [← hlevel, hheight p hp]
    exact hw.level_ge p hp

/-! ## The two calls -/

section Undone

variable (hw : WellFormed list h (lo ++ hi)) (hq : ¬ list.nodes.Live q)
  (hins : Inserted list list₁ lo h q d key value) (hdel : Deleted list₁ list₂ lo h q)

include hq hins hdel

theorem fields_undone : keyOf list₂.nodes = keyOf list.nodes ∧ valueOf list₂.nodes = valueOf list.nodes ∧
    height list₂.nodes = height list.nodes := by
  have hk : keyOf list.nodes q = none := Store.field_of_not_live hq
  have hv : valueOf list.nodes q = none := Store.field_of_not_live hq
  have hh : height list.nodes q = 0 := Store.field_of_not_live hq
  refine ⟨?_, ?_, ?_⟩
  · rw [hdel.key, hins.key, Function.update_idem, ← hk, Function.update_eq_self]
  · rw [hdel.value, hins.value, Function.update_idem, ← hv, Function.update_eq_self]
  · rw [hdel.height, hins.height, Function.update_idem, ← hh, Function.update_eq_self]

include hw

theorem link_undone (i : Nat) : linkAt list₂.nodes i = linkAt list.nodes i := by
  have hoff : ∀ p ∈ h :: (lo ++ hi), p ≠ q := by
    rintro p hp rfl
    exact hq (hw.live p hp)
  have hnone : linkAt list.nodes i q = none := Store.field_of_not_live hq
  have hpred : pred list₁.nodes h lo i = pred list.nodes h lo i := by
    unfold pred
    rw [onLevel_congr]
    intro p hp
    rw [hins.height, Function.update_of_ne (hoff p (by simp [hp]))]
  have hpq : pred list.nodes h lo i ≠ q := by
    apply hoff _ (List.mem_cons.mpr _)
    exact (pred_mem list.nodes h i lo).imp_right fun hmem => List.mem_append_left hi (mem_onLevel.mp hmem).1
  have hheight : height list₁.nodes q = d := by rw [hins.height, Function.update_self]
  rw [hdel.link, hheight, hpred, hins.link]
  by_cases hid : i < d
  · -- The predecessor's pointer went through the new node and is back.
    rw [if_pos hid, if_pos hid]
    unfold linkedIn
    rw [Function.update_of_ne hpq, Function.update_of_ne hpq.symm, Function.update_self, Function.update_idem]
    funext p
    by_cases hp : p = q
    · rw [hp, Function.update_self, hnone]
    · rw [Function.update_of_ne hp]
      by_cases hpp : p = pred list.nodes h lo i
      · rw [hpp, Function.update_self]
      · rw [Function.update_of_ne hpp, Function.update_of_ne hp, Function.update_of_ne hp]
  · rw [if_neg hid, if_neg hid, Function.update_idem, ← hnone, Function.update_eq_self]

theorem restored (hw₂ : WellFormed list₂ h (lo ++ hi)) : Restored list list₂ (h :: (lo ++ hi)) := by
  obtain ⟨hk, hv, hh⟩ := fields_undone hq hins hdel
  have hlevel := Nat.le_antisymm (level_le_of_heights hw hw₂ fun p _ => congrFun hh p)
    (level_le_of_heights hw₂ hw fun p _ => (congrFun hh p).symm)
  refine ⟨hdel.header.trans hins.header, hlevel, hw₂.length.trans hw.length.symm, hdel.compare.trans hins.compare, ?_⟩
  intro p hp
  apply cell_congr (hw.live p hp) (hw₂.live p hp) (congrFun hk p) (congrFun hv p) (congrFun hh p)
  exact fun i => congrFun (link_undone hw hq hins hdel i) p

end Undone

theorem split_inserted (horder : TotalOrder list.compare) (hsplit : Split list key lo hi)
    (hins : Inserted list list₁ lo h q d key value) (hoff : ∀ p ∈ lo ++ hi, p ≠ q) :
    Split list₁ key lo (q :: hi) := by
  have hbelow : ∀ p ≠ q, Below list₁ key p ↔ Below list key p := by
    intro p hp
    unfold Below
    rw [hins.key, hins.compare, Function.update_of_ne hp]
  refine ⟨?_, ?_⟩
  · intro p hp
    exact (hbelow p (hoff p (List.mem_append_left hi hp))).mpr (hsplit.lo p hp)
  · intro p hp
    rcases List.mem_cons.mp hp with rfl | hp
    · rintro ⟨k, hk, hlt⟩
      rw [hins.key, Function.update_self] at hk
      obtain rfl := Option.some.inj hk
      rw [hins.compare, (horder.eq_zero key key).mpr rfl] at hlt
      omega
    · rw [hbelow p (hoff p (List.mem_append_right lo hp))]
      exact hsplit.hi p hp

theorem insert_delete_spec (horder : TotalOrder list.compare) (hw : WellFormed list h l)
    (hno : ∀ p ∈ l, keyOf list.nodes p ≠ some key) (hd : 1 ≤ d) (hd32 : d ≤ SKIPLIST_MAXLEVEL)
    (hfuel : l.length < fuel) (value : V) :
    ∃ list₁ list₂, skiplist_insert fuel true d (some list) (some key) (some value) = .done (some list₁, 1) ∧
      skiplist_delete fuel (some list₁) (some key) = .done (some list₂, some value) ∧
      Restored list list₂ (h :: l) := by
  obtain ⟨lo, hi, rfl, hsplit⟩ := exists_split horder hw.sorted key
  rw [List.length_append] at hfuel
  have hlo : lo.length < fuel := by omega
  obtain ⟨list₁, hinsert, hins⟩ := insert_absent horder hsplit hw hno hlo hd32 value
  have hw₁ := wellFormed_inserted hw hins hw.ne_next horder hsplit hno hd hd32
  have hoff : ∀ p ∈ lo ++ hi, p ≠ list.nodes.next := fun p hp => hw.ne_next p (List.mem_cons_of_mem h hp)
  have hkey : keyOf list₁.nodes list.nodes.next = some key := by rw [hins.key, Function.update_self]
  have hvalue : valueOf list₁.nodes list.nodes.next = some value := by rw [hins.value, Function.update_self]
  have horder₁ : TotalOrder list₁.compare := by
    rw [hins.compare]
    exact horder
  obtain ⟨list₂, hdelete, hdel, hw₂⟩ :=
    delete_present horder₁ (split_inserted horder hsplit hins hoff) hw₁ hkey hlo
  rw [hvalue] at hdelete
  exact ⟨list₁, list₂, hinsert, hdelete, restored hw Store.next_not_live hins hdel hw₂⟩

theorem not_key_of_search (horder : TotalOrder list.compare) (hw : WellFormed list h l) (hfuel : l.length < fuel)
    (hsearch : skiplist_search fuel (some list) (some key) = .done none) :
    ∀ p ∈ l, keyOf list.nodes p ≠ some key := by
  intro p hp hkey
  obtain ⟨r, hcall, hr⟩ := skiplist_search_spec horder hw hfuel key
  obtain ⟨v, hv⟩ := hw.value p hp
  have hfound := (hr v).mpr ⟨p, hp, hkey, hv⟩
  rw [hsearch, hfound] at hcall
  cases hcall

theorem insert_null_delete (horder : TotalOrder list.compare) (hw : WellFormed list h l)
    (hno : ∀ p ∈ l, keyOf list.nodes p ≠ some key) (hfuel : l.length < fuel) (malloc : Bool) (d : Nat) :
    skiplist_insert fuel malloc d (some list) (some key) none = .done (some list, 0) ∧
      skiplist_delete fuel (some list) (some key) = .done (some list, none) := by
  obtain ⟨lo, hi, rfl, hsplit⟩ := exists_split horder hw.sorted key
  rw [List.length_append] at hfuel
  refine ⟨?_, delete_absent horder hsplit hw hno (show lo.length < fuel by omega)⟩
  unfold skiplist_insert
  simp

theorem delete_undoes (horder : TotalOrder list.compare) (hw : WellFormed list h l) :
    DeleteUndoes list (h :: l) := by
  intro key value d hd hd32 fuel hlength hsearch
  rw [gt_iff_lt, hw.length] at hlength
  have hno := not_key_of_search horder hw hlength hsearch
  cases value with
  | none =>
    obtain ⟨hinsert, hdelete⟩ := insert_null_delete horder hw hno hlength true d
    exact ⟨list, list, 0, hinsert, rfl, hdelete, rfl, rfl, rfl, rfl, fun p _ => rfl⟩
  | some value =>
    obtain ⟨list₁, list₂, hinsert, hdelete, hrestored⟩ := insert_delete_spec horder hw hno hd hd32 hlength value
    exact ⟨list₁, list₂, 1, hinsert, rfl, hdelete, hrestored⟩

/-- On every list that calls can make of a new one, deleting a key right after its insertion gives back the
inserted value and the list there was, at any level the new node may get. -/
theorem insert_delete_of_run {compare : K → K → Int} (horder : TotalOrder compare) (ops : List (Op K V))
    {random_level : Nat → Nat} (hlevels : ∀ n, 1 ≤ random_level n ∧ random_level n ≤ SKIPLIST_MAXLEVEL)
    {fuel : Nat} (hfuel : ops.length < fuel) :
    ∃ list list' as h l, skiplist_new true true compare = .done (some list) ∧
      execAll fuel random_level (some list) ops = .done (some list', as) ∧ Levels list' h l ∧
      DeleteUndoes list' (h :: l) := by
  classical
  obtain ⟨list, hnew, hcompare, hw⟩ := new_wellFormed (V := V) compare
  obtain ⟨list', l, hrun, hw', hcompare'⟩ :=
    execAll_spec (hcompare ▸ horder) hw represents_empty ops hlevels (by simpa using hfuel)
  have horder' : TotalOrder list'.compare := by
    rw [hcompare', hcompare]
    exact horder
  exact ⟨list, list', _, 0, l, hnew, hrun, hw'.levels, delete_undoes horder' hw'⟩

theorem insert_delete_of_run_sample : ∃ (list list' : skiplist Nat Nat) (as : List (Answer Nat)) (h : Nat)
    (l : List Nat), skiplist_new true true compareNat = .done (some list) ∧
    execAll 4 (fun n => n % 2 + 1) (some list) [.insert 2 7, .insert 1 8, .delete 2] = .done (some list', as) ∧
    Levels list' h l ∧ DeleteUndoes list' (h :: l) :=
  insert_delete_of_run compareNat_order [.insert 2 7, .insert 1 8, .delete 2]
    (fun n => by simp only [SKIPLIST_MAXLEVEL]; omega) (by decide)

end Akio.Skiplist
