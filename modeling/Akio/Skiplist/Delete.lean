import Akio.Skiplist.Insert

/-! # What `skiplist_delete` does to a well-formed list -/

namespace Akio.Skiplist

variable {K V : Type} {list list' : skiplist K V} {nodes nodes' : Store (skiplist_node K V)} {h p : Nat}
  {l lo hi : List Nat} {key : K} {i n fuel level : Nat}

/-! ## The loop over the levels -/

theorem unlink_spec {update : List Ptr} {u : Nat → Nat}
    (hu : ∀ j, i ≤ j → j < i + n → update[j]? = some (some (u j)) ∧ j < height nodes (u j) ∧
      (linkAt nodes j (u j) = some p ↔ j < height nodes p)) :
    ∃ nodes', unlink (some p) update n i nodes = .done nodes' ∧ Frame nodes nodes' ∧
      ∀ j, linkAt nodes' j = if i ≤ j ∧ j < i + n ∧ j < height nodes p
        then Function.update (linkAt nodes j) (u j) (linkAt nodes j p) else linkAt nodes j := by
  induction n generalizing i nodes with
  | zero =>
    refine ⟨nodes, rfl, ⟨rfl, rfl, rfl⟩, ?_⟩
    intro j
    rw [if_neg (by omega)]
  | succ n ih =>
    obtain ⟨hupdate, hui, hlink⟩ := hu i (Nat.le_refl i) (by omega)
    by_cases hip : i < height nodes p
    · have hset : ∀ j, linkAt (setAt nodes (u i) i (linkAt nodes i p)) j =
          if j = i then Function.update (linkAt nodes j) (u i) (linkAt nodes i p) else linkAt nodes j :=
        fun j => linkAt_setAt hui
      have hu' : ∀ j, i + 1 ≤ j → j < i + 1 + n → update[j]? = some (some (u j)) ∧
          j < height (setAt nodes (u i) i (linkAt nodes i p)) (u j) ∧
          (linkAt (setAt nodes (u i) i (linkAt nodes i p)) j (u j) = some p ↔
            j < height (setAt nodes (u i) i (linkAt nodes i p)) p) := by
        intro j hj hjn
        rw [hset, if_neg (by omega), height_setAt]
        exact hu j (by omega) (by omega)
      obtain ⟨nodes', hunlink, hframe, hlink'⟩ := ih hu'
      refine ⟨nodes', ?_, ⟨by simp [hframe.key], by simp [hframe.value], by simp [hframe.height]⟩, ?_⟩
      · unfold unlink
        rw [hupdate, Outcome.ofOption_some, Outcome.done_bind, getForward_spec hui, Outcome.done_bind,
          if_neg (by rw [hlink.mpr hip]; simp), getForward_spec hip, Outcome.done_bind,
          setForward_spec hui, Outcome.done_bind]
        exact hunlink
      · intro j
        rw [hlink', hset, height_setAt]
        by_cases hji : j = i
        · subst hji
          rw [if_neg (by omega), if_pos rfl, if_pos (by omega)]
        · rw [if_neg hji]
          by_cases hj : i + 1 ≤ j ∧ j < i + 1 + n ∧ j < height nodes p
          · rw [if_pos hj, if_pos (by omega)]
          · rw [if_neg hj, if_neg (by omega)]
    · -- The node is on no level from `i` on, so the loop breaks.
      refine ⟨nodes, ?_, ⟨rfl, rfl, rfl⟩, ?_⟩
      · unfold unlink
        rw [hupdate, Outcome.ofOption_some, Outcome.done_bind, getForward_spec hui, Outcome.done_bind,
          if_pos fun heq => hip (hlink.mp heq)]
        rfl
      · intro j
        rw [if_neg (by omega)]

theorem shrink_spec (hheight : height nodes h = SKIPLIST_MAXLEVEL)
    (hempty : ∀ i < SKIPLIST_MAXLEVEL, linkAt nodes i h = none ↔ ∀ p ∈ l, height nodes p ≤ i)
    (hle : level ≤ SKIPLIST_MAXLEVEL) (hpos : 0 < level) (hge : ∀ p ∈ l, height nodes p ≤ level) :
    ∃ level', shrink nodes (some h) level = .done level' ∧ 0 < level' ∧
      (∀ p ∈ l, height nodes p ≤ level') ∧ (level' = 1 ∨ ∃ p ∈ l, height nodes p = level') := by
  induction level with
  | zero => omega
  | succ level ih =>
    unfold shrink
    by_cases hone : level + 1 > 1
    · rw [if_pos hone, getForward_spec (by rw [hheight]; omega), Outcome.done_bind]
      by_cases htop : linkAt nodes level h = none
      · rw [if_pos htop]
        exact ih (by omega) (by omega) ((hempty level (by omega)).mp htop)
      · rw [if_neg htop]
        refine ⟨level + 1, rfl, by omega, hge, Or.inr ?_⟩
        rw [hempty level (by omega)] at htop
        simp only [not_forall] at htop
        obtain ⟨p, hp, hlt⟩ := htop
        exact ⟨p, hp, by have := hge p hp; omega⟩
    · rw [if_neg hone]
      exact ⟨level + 1, rfl, by omega, hge, Or.inl (by omega)⟩

/-! ## The new list -/

/-- A list with one node less, and how its nodes differ. -/
structure Deleted (list list' : skiplist K V) (lo : List Nat) (h p : Nat) : Prop where
  header : list'.header = list.header
  compare : list'.compare = list.compare
  key : keyOf list'.nodes = Function.update (keyOf list.nodes) p none
  value : valueOf list'.nodes = Function.update (valueOf list.nodes) p none
  height : height list'.nodes = Function.update (height list.nodes) p 0
  link : ∀ i, linkAt list'.nodes i = Function.update (if i < Skiplist.height list.nodes p
    then Function.update (linkAt list.nodes i) (pred list.nodes h lo i) (linkAt list.nodes i p)
    else linkAt list.nodes i) p none
  length : list'.length = list.length - 1

section Deleted

variable (hw : WellFormed list h (lo ++ p :: hi)) (hdel : Deleted list list' lo h p)
  (hnodup : (lo ++ p :: hi).Nodup)

include hw hdel hnodup

theorem not_deleted : ∀ q ∈ h :: (lo ++ hi), q ≠ p := by
  intro q hq
  rcases List.mem_cons.mp hq with rfl | hq
  · rintro rfl
    exact hw.header_off (by simp)
  · rintro rfl
    exact (List.nodup_middle.mp hnodup |> List.nodup_cons.mp).1 hq

theorem chain_deleted (hi32 : i < SKIPLIST_MAXLEVEL) :
    Chain (linkAt list'.nodes i) (linkAt list'.nodes i h) (onLevel list'.nodes i (lo ++ hi)) none := by
  have hoff := not_deleted hw hdel hnodup
  have hheight : ∀ q ∈ lo ++ hi, height list'.nodes q = height list.nodes q := by
    intro q hq
    rw [hdel.height, Function.update_of_ne (hoff q (List.mem_cons_of_mem h hq))]
  have hold := hw.chain i hi32
  have hsub : ∀ q ∈ onLevel list.nodes i lo ++ onLevel list.nodes i hi, q ∈ lo ++ hi := by
    intro q hq
    rw [← onLevel_append] at hq
    exact (mem_onLevel.mp hq).1
  rw [onLevel_append, onLevel_cons] at hold
  rw [onLevel_congr hheight, onLevel_append]
  by_cases hip : i < height list.nodes p
  · rw [if_pos hip] at hold
    have hlink : ∀ y, y ≠ p → linkAt list'.nodes i y =
        if y = pred list.nodes h lo i then linkAt list.nodes i p else linkAt list.nodes i y := by
      intro y hy
      rw [hdel.link, Function.update_of_ne hy, if_pos hip, Function.update_apply]
    have hlast : (h :: onLevel list.nodes i lo).getLast? = some (pred list.nodes h lo i) := by
      rw [List.getLast?_cons, ← List.getLastD_eq_getLast?]
      rfl
    have hpred : pred list.nodes h lo i ≠ p := by
      refine hoff _ (List.mem_cons.mpr ?_)
      exact (pred_mem list.nodes h i lo).imp_right fun hmem => hsub _ (List.mem_append_left _ hmem)
    have hold' : Chain (linkAt list.nodes i) (some h)
        ((h :: onLevel list.nodes i lo) ++ p :: onLevel list.nodes i hi) none := ⟨rfl, hold⟩
    have hnew : Chain (linkAt list'.nodes i) (some h)
        ((h :: onLevel list.nodes i lo) ++ onLevel list.nodes i hi) none := by
      refine hold'.erase ?_ ?_ ?_
      · intro y hy
        obtain rfl := Option.some.inj (hy.symm.trans hlast)
        rw [hlink _ hpred, if_pos rfl]
      · intro y hy hne
        have hyp : y ≠ p := hoff y (List.mem_cons.mpr ((List.mem_cons.mp hy).imp_right (hsub y)))
        rw [hlink y hyp, if_neg (show y ≠ pred list.nodes h lo i from fun heq => hne (heq ▸ hlast))]
      · rw [List.cons_append, List.nodup_cons, ← onLevel_append]
        refine ⟨fun hmem => hw.header_off ?_, (List.nodup_cons.mp (List.nodup_middle.mp hnodup)).2.filter _⟩
        have := (mem_onLevel.mp hmem).1
        simp only [List.mem_append, List.mem_cons] at this ⊢
        tauto
    exact hnew.2
  · rw [if_neg hip] at hold
    have hlink : ∀ y, y ≠ p → linkAt list'.nodes i y = linkAt list.nodes i y := by
      intro y hy
      rw [hdel.link, Function.update_of_ne hy, if_neg hip]
    rw [hlink h (hoff h List.mem_cons_self)]
    refine hold.congr ?_
    intro q hq
    exact hlink q (hoff q (List.mem_cons_of_mem h (hsub q hq)))

theorem wellFormed_deleted (hpos : 0 < list'.level)
    (hge : ∀ q ∈ lo ++ hi, height list'.nodes q ≤ list'.level)
    (heq : list'.level = 1 ∨ ∃ q ∈ lo ++ hi, height list'.nodes q = list'.level) :
    WellFormed list' h (lo ++ hi) := by
  have hoff := not_deleted hw hdel hnodup
  have hin : ∀ q ∈ lo ++ hi, q ∈ lo ++ p :: hi ∧ q ≠ p := by
    intro q hq
    exact ⟨mem_middle.mpr (Or.inr hq), hoff q (List.mem_cons_of_mem h hq)⟩
  have hkey : ∀ q ∈ lo ++ hi, keyOf list'.nodes q = keyOf list.nodes q := by
    intro q hq
    rw [hdel.key, Function.update_of_ne (hin q hq).2]
  have hheight : ∀ q ∈ lo ++ hi, height list'.nodes q = height list.nodes q := by
    intro q hq
    rw [hdel.height, Function.update_of_ne (hin q hq).2]
  refine ⟨by rw [hdel.header, hw.header], ?_, ?_, ?_, ?_, ?_, ?_, ?_, ?_, hpos, hge, heq, ?_⟩
  · rw [hdel.height, Function.update_of_ne (hoff h List.mem_cons_self), hw.header_height]
  · exact fun hh => hw.header_off (hin h hh).1
  · intro q hq
    rw [hkey q hq]
    exact hw.key q (hin q hq).1
  · intro q hq
    rw [hdel.value, Function.update_of_ne (hin q hq).2]
    exact hw.value q (hin q hq).1
  · intro q hq
    rw [hheight q hq]
    exact hw.height_pos q (hin q hq).1
  · intro q hq
    rw [hheight q hq]
    exact hw.height_le q (hin q hq).1
  · have hsub : (lo ++ hi).Sublist (lo ++ p :: hi) := 
      (List.Sublist.refl lo).append (List.sublist_cons_self p hi)
    refine (hw.sorted.sublist hsub).imp_of_mem ?_
    rintro a b ha hb ⟨kb, hkb, ka, hka, hlt⟩
    exact ⟨kb, (hkey b hb).trans hkb, ka, (hkey a ha).trans hka, by rw [hdel.compare]; exact hlt⟩
  · exact fun i hi32 => chain_deleted hw hdel hnodup hi32
  · rw [hdel.length, hw.length]
    simp

end Deleted

/-! ## The call -/

theorem delete_absent (horder : TotalOrder list.compare) (hsplit : Split list key lo hi)
    (hw : WellFormed list h (lo ++ hi)) (hno : ∀ p ∈ lo ++ hi, keyOf list.nodes p ≠ some key)
    (hfuel : lo.length < fuel) :
    skiplist_delete fuel (some list) (some key) = .done (some list, none) := by
  obtain ⟨hdescend, hnext⟩ := search_spec hsplit hw hfuel
  unfold skiplist_delete
  simp [hdescend, hnext, found_absent horder hw hno]

theorem header_none_iff (hchain : Chain (linkAt nodes i) (linkAt nodes i h) (onLevel nodes i l) none) :
    linkAt nodes i h = none ↔ ∀ p ∈ l, height nodes p ≤ i := by
  rw [hchain.head_eq, List.head?_eq_none_iff]
  unfold onLevel
  rw [List.filter_eq_nil_iff]
  simp

theorem update_leads (hw : WellFormed list h (lo ++ p :: hi)) (hnodup : (lo ++ p :: hi).Nodup)
    (hi32 : i < list.level) :
    ((List.range list.level).map fun j => some (pred list.nodes h lo j))[i]? = some (some (pred list.nodes h lo i)) ∧
      i < height list.nodes (pred list.nodes h lo i) ∧
      (linkAt list.nodes i (pred list.nodes h lo i) = some p ↔ i < height list.nodes p) := by
  have hlevel := hw.level_le
  refine ⟨?_, pred_height (by omega) hw, ?_⟩
  · rw [List.getElem?_map, List.getElem?_range hi32]
    rfl
  · rw [link_pred (by omega) hw, onLevel_cons]
    split
    · next hlt => exact iff_of_true rfl hlt
    · next hlt =>
      apply iff_of_false _ hlt
      intro hhead
      have hmem := (mem_onLevel.mp (List.mem_of_head? hhead)).1
      exact (List.nodup_cons.mp (List.nodup_append.mp hnodup).2.1).1 hmem

theorem deleted_of_unlink (hframe : Frame list.nodes nodes')
    (hlink : ∀ j, linkAt nodes' j = if 0 ≤ j ∧ j < 0 + list.level ∧ j < height list.nodes p
      then Function.update (linkAt list.nodes j) (pred list.nodes h lo j) (linkAt list.nodes j p)
      else linkAt list.nodes j)
    (hp : height list.nodes p ≤ list.level) (level : Nat) :
    Deleted list { list with level, nodes := nodes'.drop p, length := list.length - 1 } lo h p := by
  refine ⟨rfl, rfl, ?_, ?_, ?_, ?_, rfl⟩
  · exact Store.field_drop.trans (by rw [← hframe.key]; rfl)
  · exact Store.field_drop.trans (by rw [← hframe.value]; rfl)
  · exact Store.field_drop.trans (by rw [← hframe.height]; rfl)
  · intro i
    refine Store.field_drop.trans ?_
    have hi := hlink i
    unfold linkAt at hi ⊢
    rw [hi]
    by_cases hip : i < height list.nodes p
    · rw [if_pos hip, if_pos (by omega)]
    · rw [if_neg hip, if_neg (by omega)]

theorem delete_present (horder : TotalOrder list.compare) (hsplit : Split list key lo (p :: hi))
    (hw : WellFormed list h (lo ++ p :: hi)) (hkey : keyOf list.nodes p = some key)
    (hfuel : lo.length < fuel) :
    ∃ list', skiplist_delete fuel (some list) (some key) = .done (some list', valueOf list.nodes p) ∧
      Deleted list list' lo h p ∧ WellFormed list' h (lo ++ hi) := by
  obtain ⟨hdescend, hnext⟩ := search_spec hsplit hw hfuel
  have hnodup := hw.nodup horder
  have hpheight := hw.level_ge p (by simp)
  obtain ⟨nodes', hunlink, hframe, hlink⟩ :=
    unlink_spec (i := 0) (n := list.level) fun j _ hj => update_leads hw hnodup (show j < list.level by omega)
  have hlive : nodes'.Live p := by
    refine live_of_height (i := 0) ?_
    rw [hframe.height]
    exact hw.height_pos p (by simp)
  obtain ⟨n, hn⟩ := Store.live_iff.mp hlive
  have hvalue : n.value = valueOf list.nodes p := by
    rw [← hframe.value]
    exact (Store.field_of_cell hn).symm
  have hdel := deleted_of_unlink hframe hlink hpheight
  have hoff := not_deleted hw (hdel 0) hnodup
  have hheight : height (nodes'.drop p) = Function.update (height list.nodes) p 0 := (hdel 0).height
  have hge : ∀ q ∈ lo ++ hi, height (nodes'.drop p) q ≤ list.level := by
    intro q hq
    rw [hheight, Function.update_of_ne (hoff q (List.mem_cons_of_mem h hq))]
    exact hw.level_ge q (mem_middle.mpr (Or.inr hq))
  have hhheight : height (nodes'.drop p) h = SKIPLIST_MAXLEVEL := by
    rw [hheight, Function.update_of_ne (hoff h List.mem_cons_self), hw.header_height]
  obtain ⟨level', hshrink, hpos', hge', heq'⟩ := shrink_spec hhheight
    (fun i hi32 => header_none_iff (chain_deleted hw (hdel 0) hnodup hi32)) hw.level_le hw.level_pos hge
  refine ⟨{ list with level := level', nodes := nodes'.drop p, length := list.length - 1 }, ?_, hdel level',
    wellFormed_deleted hw (hdel level') hnodup hpos' hge' heq'⟩
  rw [← hw.header] at hshrink
  unfold skiplist_delete
  simp only [hdescend, hnext, Outcome.done_bind, List.head?_cons, found_present horder hkey, if_true, hunlink,
    Store.read_of_cell hn, Store.free_live hlive, hshrink, hvalue, Outcome.pure_eq]

end Akio.Skiplist
