import Akio.Skiplist.Search

/-! # What `skiplist_insert` does to a well-formed list -/

namespace Akio.Skiplist

variable {K V : Type} {list : skiplist K V} {nodes nodes' : Store (skiplist_node K V)} {h p q : Nat}
  {l lo hi : List Nat} {key : K} {value : V} {i j n fuel : Nat} {x : Ptr}

/-! ## One pointer -/

def setAt (nodes : Store (skiplist_node K V)) (p i : Nat) (x : Ptr) : Store (skiplist_node K V) :=
  nodes.adjust p fun n => { n with forward := n.forward.set i x }

@[simp] theorem keyOf_setAt : keyOf (setAt nodes p i x) = keyOf nodes :=
  Store.field_adjust_keep fun _ => rfl

@[simp] theorem valueOf_setAt : valueOf (setAt nodes p i x) = valueOf nodes :=
  Store.field_adjust_keep fun _ => rfl

@[simp] theorem height_setAt : height (setAt nodes p i x) = height nodes :=
  Store.field_adjust_keep fun _ => List.length_set

theorem linkAt_setAt (hi : i < height nodes p) : linkAt (setAt nodes p i x) j =
    if j = i then Function.update (linkAt nodes j) p x else linkAt nodes j := by
  obtain ⟨n, hn, hlt⟩ := exists_cell_of_height hi
  funext q
  unfold linkAt setAt Store.field
  by_cases hq : q = p
  · subst hq
    by_cases hj : j = i
    · subst hj
      simp [Store.adjust_cell_self, hn, hlt]
    · simp [Store.adjust_cell_self, hn, hj, Ne.symm hj]
  · by_cases hj : j = i <;> simp [Store.adjust_cell_of_ne hq, hq, hj]

theorem setForward_spec (hi : i < height nodes p) :
    setForward nodes (some p) i x = .done (setAt nodes p i x) := by
  obtain ⟨n, hn, hlt⟩ := exists_cell_of_height hi
  unfold setForward
  rw [Store.read_of_cell hn, Outcome.done_bind, if_pos hlt, Store.modify_live (live_of_height hi)]
  rfl

/-! ## The loop over the levels -/

/-- The nodes have the keys, values and heights they had. -/
structure Frame (nodes nodes' : Store (skiplist_node K V)) : Prop where
  key : keyOf nodes' = keyOf nodes
  value : valueOf nodes' = valueOf nodes
  height : height nodes' = height nodes

/-- The pointers of one level with `q` linked in behind `u`. -/
def linkedIn (link : Nat → Ptr) (q u : Nat) : Nat → Ptr :=
  Function.update (Function.update link q (link u)) u (some q)

theorem splice_spec {update : List Ptr} {u : Nat → Nat} (hq : i + n ≤ height nodes q)
    (hu : ∀ j, i ≤ j → j < i + n → update[j]? = some (some (u j)) ∧ j < height nodes (u j)) :
    ∃ nodes', splice (some q) update n i nodes = .done nodes' ∧ Frame nodes nodes' ∧
      ∀ j, linkAt nodes' j =
        if i ≤ j ∧ j < i + n then linkedIn (linkAt nodes j) q (u j) else linkAt nodes j := by
  induction n generalizing i nodes with
  | zero =>
    refine ⟨nodes, rfl, ⟨rfl, rfl, rfl⟩, ?_⟩
    intro j
    rw [if_neg (by omega)]
  | succ n ih =>
    obtain ⟨hupdate, hui⟩ := hu i (Nat.le_refl i) (by omega)
    have hqi : i < height nodes q := by omega
    have hq' : i + 1 + n ≤ height (setAt (setAt nodes q i (linkAt nodes i (u i))) (u i) i (some q)) q := by
      simp only [height_setAt]
      omega
    obtain ⟨nodes', hsplice, hframe, hlink⟩ := ih hq' (by
      intro j hj hjn
      simp only [height_setAt]
      exact hu j (by omega) (by omega))
    refine ⟨nodes', ?_, ?_, ?_⟩
    · unfold splice
      rw [hupdate, Outcome.ofOption_some, Outcome.done_bind, getForward_spec hui, Outcome.done_bind,
        setForward_spec hqi, Outcome.done_bind, setForward_spec (by simpa using hui), Outcome.done_bind]
      exact hsplice
    · exact ⟨by simp [hframe.key], by simp [hframe.value], by simp [hframe.height]⟩
    · intro j
      have hset : linkAt (setAt (setAt nodes q i (linkAt nodes i (u i))) (u i) i (some q)) j =
          if j = i then linkedIn (linkAt nodes j) q (u j) else linkAt nodes j := by
        rw [linkAt_setAt (by simpa using hui), linkAt_setAt hqi]
        by_cases hji : j = i
        · subst hji
          rw [if_pos rfl, if_pos rfl, if_pos rfl]
          rfl
        · rw [if_neg hji, if_neg hji, if_neg hji]
      rw [hlink, hset]
      by_cases hji : j = i
      · rw [if_neg (by omega), if_pos hji, if_pos (by omega)]
      · rw [if_neg hji]
        by_cases hj : i + 1 ≤ j ∧ j < i + 1 + n
        · rw [if_pos hj, if_pos (by omega)]
        · rw [if_neg hj, if_neg (by omega)]

/-! ## The new list -/

theorem WellFormed.nodup (horder : TotalOrder list.compare) (hw : WellFormed list h l) : l.Nodup := by
  refine hw.sorted.imp ?_
  rintro p q ⟨k, hk, k', hk', hlt⟩ rfl
  obtain rfl := Option.some.inj (hk.symm.trans hk')
  rw [(horder.eq_zero k k).mpr rfl] at hlt
  omega

/-- A list with one more node, and how its nodes differ. -/
structure Inserted (list list' : skiplist K V) (lo : List Nat) (h q d : Nat) (key : K) (value : V) : Prop where
  header : list'.header = list.header
  compare : list'.compare = list.compare
  key : keyOf list'.nodes = Function.update (keyOf list.nodes) q (some key)
  value : valueOf list'.nodes = Function.update (valueOf list.nodes) q (some value)
  height : height list'.nodes = Function.update (height list.nodes) q d
  link : ∀ i, linkAt list'.nodes i = if i < d
    then linkedIn (Function.update (linkAt list.nodes i) q none) q (pred list.nodes h lo i)
    else Function.update (linkAt list.nodes i) q none
  level : list'.level = max list.level d
  length : list'.length = list.length + 1

theorem onLevel_congr {nodes nodes' : Store (skiplist_node K V)}
    (h : ∀ p ∈ l, height nodes' p = height nodes p) : onLevel nodes' i l = onLevel nodes i l := by
  unfold onLevel
  refine List.filter_congr ?_
  intro p hp
  rw [h p hp]

theorem onLevel_cons : onLevel nodes i (p :: l) =
    if i < height nodes p then p :: onLevel nodes i l else onLevel nodes i l := by
  unfold onLevel
  rw [List.filter_cons]
  simp

theorem mem_middle : p ∈ lo ++ q :: hi ↔ p = q ∨ p ∈ lo ++ hi :=
  List.perm_middle.mem_iff.trans List.mem_cons

section Inserted

variable {list' : skiplist K V} {d : Nat} (hw : WellFormed list h (lo ++ hi))
  (hins : Inserted list list' lo h q d key value) (hq : ∀ p ∈ h :: (lo ++ hi), p ≠ q)

include hw hins hq

theorem chain_inserted (hnodup : (lo ++ hi).Nodup) (hi32 : i < SKIPLIST_MAXLEVEL) :
    Chain (linkAt list'.nodes i) (linkAt list'.nodes i h) (onLevel list'.nodes i (lo ++ q :: hi)) none := by
  have hheight : ∀ p ∈ lo ++ hi, height list'.nodes p = height list.nodes p := by
    intro p hp
    rw [hins.height, Function.update_of_ne (hq p (List.mem_cons_of_mem h hp))]
  have hlo := onLevel_congr (i := i) fun p hp => hheight p (List.mem_append_left hi hp)
  have hhi := onLevel_congr (i := i) fun p hp => hheight p (List.mem_append_right lo hp)
  have hold := hw.chain i hi32
  have hsub : ∀ p ∈ onLevel list.nodes i lo ++ onLevel list.nodes i hi, p ∈ lo ++ hi := by
    intro p hp
    rw [← onLevel_append] at hp
    exact (mem_onLevel.mp hp).1
  rw [onLevel_append] at hold
  rw [onLevel_append, onLevel_cons, hlo, hhi, hins.height, Function.update_self]
  by_cases hid : i < d
  · have hpq : pred list.nodes h lo i ≠ q := by
      refine hq _ (List.mem_cons.mpr ?_)
      exact (pred_mem list.nodes h i lo).imp_right fun hmem => hsub _ (List.mem_append_left _ hmem)
    have hlink : ∀ y, linkAt list'.nodes i y = if y = pred list.nodes h lo i then some q
        else if y = q then linkAt list.nodes i (pred list.nodes h lo i) else linkAt list.nodes i y := by
      intro y
      rw [hins.link, if_pos hid]
      unfold linkedIn
      simp only [Function.update_apply, if_neg hpq]
      by_cases hy : y = q <;> simp [hy]
    have hlast : (h :: onLevel list.nodes i lo).getLast? = some (pred list.nodes h lo i) := by
      rw [List.getLast?_cons, ← List.getLastD_eq_getLast?]
      rfl
    have hold' : Chain (linkAt list.nodes i) (some h)
        ((h :: onLevel list.nodes i lo) ++ onLevel list.nodes i hi) none := ⟨rfl, hold⟩
    have hnew : Chain (linkAt list'.nodes i) (some h)
        ((h :: onLevel list.nodes i lo) ++ q :: onLevel list.nodes i hi) none := by
      refine hold'.insert ?_ ?_ ?_ ?_
      · rw [hlink q, if_neg hpq.symm, if_pos rfl, link_pred hi32 hw]
      · intro y hy
        rw [hlink y, if_pos (Option.some.inj (hy.symm.trans hlast))]
      · intro y hy hne
        rw [hlink y, if_neg (show y ≠ pred list.nodes h lo i from fun heq => hne (heq ▸ hlast)), if_neg]
        refine hq y (List.mem_cons.mpr ?_)
        exact (List.mem_cons.mp hy).imp_right (hsub y)
      · rw [List.cons_append, List.nodup_cons, ← onLevel_append]
        exact ⟨fun hmem => hw.header_off (mem_onLevel.mp hmem).1, hnodup.filter _⟩
    rw [if_pos hid]
    exact hnew.2
  · have hlink : ∀ y, y ≠ q → linkAt list'.nodes i y = linkAt list.nodes i y := by
      intro y hy
      rw [hins.link, if_neg hid, Function.update_of_ne hy]
    rw [if_neg hid, hlink h (hq h List.mem_cons_self)]
    refine hold.congr ?_
    intro p hp
    exact hlink p (hq p (List.mem_cons_of_mem h (hsub p hp)))

theorem sorted_inserted (horder : TotalOrder list.compare) (hsplit : Split list key lo hi)
    (hno : ∀ p ∈ lo ++ hi, keyOf list.nodes p ≠ some key) : (lo ++ q :: hi).Pairwise (Before list') := by
  have hkey : ∀ p ∈ lo ++ hi, keyOf list'.nodes p = keyOf list.nodes p := by
    intro p hp
    rw [hins.key, Function.update_of_ne (hq p (List.mem_cons_of_mem h hp))]
  have hqkey : keyOf list'.nodes q = some key := by
    rw [hins.key, Function.update_self]
  have hbefore : ∀ a ∈ lo ++ hi, ∀ b ∈ lo ++ hi, Before list a b → Before list' a b := by
    rintro a ha b hb ⟨kb, hkb, ka, hka, hlt⟩
    exact ⟨kb, (hkey b hb).trans hkb, ka, (hkey a ha).trans hka, by rw [hins.compare]; exact hlt⟩
  obtain ⟨hlo, hhi, hcross⟩ := List.pairwise_append.mp hw.sorted
  have hin : ∀ p ∈ hi, p ∈ lo ++ hi := fun p hp => List.mem_append_right lo hp
  have hin' : ∀ p ∈ lo, p ∈ lo ++ hi := fun p hp => List.mem_append_left hi hp
  refine List.pairwise_append.mpr ⟨?_, List.pairwise_cons.mpr ⟨?_, ?_⟩, ?_⟩
  · exact hlo.imp_of_mem fun ha hb h => hbefore _ (hin' _ ha) _ (hin' _ hb) h
  · intro p hp
    obtain ⟨k, hk⟩ := hw.key p (hin p hp)
    have hge : ¬ list.compare k key < 0 := fun hlt => hsplit.hi p hp ⟨k, hk, hlt⟩
    have hne : list.compare k key ≠ 0 := by
      intro hzero
      obtain rfl := (horder.eq_zero k key).mp hzero
      exact hno p (hin p hp) hk
    refine ⟨k, (hkey p (hin p hp)).trans hk, key, hqkey, ?_⟩
    rw [hins.compare, horder.swap]
    omega
  · exact hhi.imp_of_mem fun ha hb h => hbefore _ (hin _ ha) _ (hin _ hb) h
  · intro a ha b hb
    rcases List.mem_cons.mp hb with rfl | hb
    · obtain ⟨k, hk, hlt⟩ := hsplit.lo a ha
      exact ⟨key, hqkey, k, (hkey a (hin' a ha)).trans hk, by rw [hins.compare]; exact hlt⟩
    · exact hbefore a (hin' a ha) b (hin b hb) (hcross a ha b hb)

theorem wellFormed_inserted (horder : TotalOrder list.compare) (hsplit : Split list key lo hi)
    (hno : ∀ p ∈ lo ++ hi, keyOf list.nodes p ≠ some key) (hd : 1 ≤ d) (hd32 : d ≤ SKIPLIST_MAXLEVEL) :
    WellFormed list' h (lo ++ q :: hi) := by
  have hmem (p : Nat) : p ∈ lo ++ q :: hi ↔ p = q ∨ p ∈ lo ++ hi := mem_middle
  have hold : ∀ p ∈ lo ++ hi, p ≠ q := fun p hp => hq p (List.mem_cons_of_mem h hp)
  have hheight : ∀ p ∈ lo ++ hi, height list'.nodes p = height list.nodes p := by
    intro p hp
    rw [hins.height, Function.update_of_ne (hold p hp)]
  have hqheight : height list'.nodes q = d := by
    rw [hins.height, Function.update_self]
  have hlevel := hins.level
  refine ⟨by rw [hins.header, hw.header], ?_, ?_, ?_, ?_, ?_, ?_, sorted_inserted hw hins hq horder hsplit hno,
    fun i hi32 => chain_inserted hw hins hq (hw.nodup horder) hi32, ?_, ?_, ?_, ?_⟩
  · rw [hins.height, Function.update_of_ne (hq h List.mem_cons_self), hw.header_height]
  · rw [hmem]
    rintro (rfl | hh)
    · exact hq h List.mem_cons_self rfl
    · exact hw.header_off hh
  · intro p hp
    rw [hins.key]
    rcases (hmem p).mp hp with rfl | hp
    · exact ⟨key, Function.update_self ..⟩
    · rw [Function.update_of_ne (hold p hp)]
      exact hw.key p hp
  · intro p hp
    rw [hins.value]
    rcases (hmem p).mp hp with rfl | hp
    · exact ⟨value, Function.update_self ..⟩
    · rw [Function.update_of_ne (hold p hp)]
      exact hw.value p hp
  · intro p hp
    rcases (hmem p).mp hp with rfl | hp
    · rw [hqheight]
      exact hd
    · rw [hheight p hp]
      exact hw.height_pos p hp
  · intro p hp
    rcases (hmem p).mp hp with rfl | hp
    · rw [hqheight]
      exact hd32
    · rw [hheight p hp]
      exact hw.height_le p hp
  · have := hw.level_pos
    omega
  · intro p hp
    rcases (hmem p).mp hp with rfl | hp
    · rw [hqheight]
      omega
    · rw [hheight p hp]
      have := hw.level_ge p hp
      omega
  · by_cases hgrow : list.level < d
    · exact Or.inr ⟨q, (hmem q).mpr (Or.inl rfl), by rw [hqheight]; omega⟩
    · rcases hw.level_eq with hone | ⟨p, hp, hlevel'⟩
      · exact Or.inl (by omega)
      · exact Or.inr ⟨p, (hmem p).mpr (Or.inr hp), by rw [hheight p hp]; omega⟩
  · rw [hins.length, hw.length]
    simp
    omega

end Inserted

/-! ## The call -/

theorem WellFormed.live (hw : WellFormed list h l) : ∀ p ∈ h :: l, list.nodes.Live p := by
  intro p hp
  rcases List.mem_cons.mp hp with rfl | hp
  · apply live_of_height (i := 0)
    rw [hw.header_height]
    decide
  · exact live_of_height (hw.height_pos p hp)

theorem WellFormed.ne_next (hw : WellFormed list h l) : ∀ p ∈ h :: l, p ≠ list.nodes.next :=
  fun p hp => (hw.live p hp).ne_next

theorem update_get (hw : WellFormed list h (lo ++ hi)) (hj : j < max list.level n) :
    ((List.range list.level).map (fun j => some (pred list.nodes h lo j)) ++
      List.replicate (n - list.level) list.header)[j]? = some (some (pred list.nodes h lo j)) := by
  by_cases hlt : j < list.level
  · rw [List.getElem?_append_left (by simpa using hlt)]
    simp [hlt]
  · have hpred : pred list.nodes h lo j = h := by
      unfold pred
      rw [onLevel_eq_nil]
      · rfl
      · intro p hp
        have := hw.level_ge p (List.mem_append_left hi hp)
        omega
    rw [List.getElem?_append_right (by simpa using hlt), hpred, hw.header, List.getElem?_replicate,
      List.length_map, List.length_range, if_pos (by omega)]

theorem insert_present (horder : TotalOrder list.compare) (hsplit : Split list key lo (p :: hi))
    (hw : WellFormed list h (lo ++ p :: hi)) (hkey : keyOf list.nodes p = some key)
    (hfuel : lo.length < fuel) (malloc : Bool) (d : Nat) (value : V) :
    ∃ list', skiplist_insert fuel malloc d (some list) (some key) (some value) = .done (some list', 1) ∧
      WellFormed list' h (lo ++ p :: hi) ∧ list'.compare = list.compare ∧
      keyOf list'.nodes = keyOf list.nodes ∧
      valueOf list'.nodes = Function.update (valueOf list.nodes) p (some value) := by
  obtain ⟨hdescend, hnext⟩ := search_spec hsplit hw hfuel
  have hlive : list.nodes.Live p := live_of_height (hw.height_pos p (by simp))
  have hk : keyOf (list.nodes.adjust p fun n => { n with value := some value }) = keyOf list.nodes :=
    Store.field_adjust_keep fun _ => rfl
  have hh : height (list.nodes.adjust p fun n => { n with value := some value }) = height list.nodes :=
    Store.field_adjust_keep fun _ => rfl
  have hl : ∀ i, linkAt (list.nodes.adjust p fun n => { n with value := some value }) i =
      linkAt list.nodes i := fun i => Store.field_adjust_keep fun _ => rfl
  have hv : valueOf (list.nodes.adjust p fun n => { n with value := some value }) =
      Function.update (valueOf list.nodes) p (some value) := Store.field_adjust_set (fun _ => rfl) hlive
  refine ⟨{ list with nodes := list.nodes.adjust p fun n => { n with value := some value } }, ?_, ?_,
    rfl, hk, hv⟩
  · unfold skiplist_insert
    simp only [hdescend, hnext, Outcome.done_bind, List.head?_cons, found_present horder hkey, if_true,
      reduceCtorEq, if_false, Store.modify_live hlive, Outcome.pure_eq]
  · refine ⟨hw.header, by rw [hh, hw.header_height], hw.header_off, by rw [hk]; exact hw.key, ?_,
      by rw [hh]; exact hw.height_pos, by rw [hh]; exact hw.height_le, ?_, ?_, hw.level_pos,
      by rw [hh]; exact hw.level_ge, by rw [hh]; exact hw.level_eq, hw.length⟩
    · intro y hy
      rw [hv]
      by_cases hyp : y = p
      · exact ⟨value, by rw [hyp, Function.update_self]⟩
      · rw [Function.update_of_ne hyp]
        exact hw.value y hy
    · refine hw.sorted.imp ?_
      rintro a b ⟨kb, hkb, ka, hka, hlt⟩
      exact ⟨kb, by rw [hk]; exact hkb, ka, by rw [hk]; exact hka, hlt⟩
    · intro i hi32
      have hon : onLevel (list.nodes.adjust p fun n => { n with value := some value }) i (lo ++ p :: hi) =
          onLevel list.nodes i (lo ++ p :: hi) := onLevel_congr fun y _ => by rw [hh]
      rw [hl, hon]
      exact hw.chain i hi32

theorem insert_absent (horder : TotalOrder list.compare) (hsplit : Split list key lo hi)
    (hw : WellFormed list h (lo ++ hi)) (hno : ∀ p ∈ lo ++ hi, keyOf list.nodes p ≠ some key)
    (hfuel : lo.length < fuel) {d : Nat} (hd32 : d ≤ SKIPLIST_MAXLEVEL) (value : V) :
    ∃ list', skiplist_insert fuel true d (some list) (some key) (some value) = .done (some list', 1) ∧
      Inserted list list' lo h list.nodes.next d key value := by
  obtain ⟨hdescend, hnext⟩ := search_spec hsplit hw hfuel
  let node : skiplist_node K V := ⟨some key, some value, List.replicate d none⟩
  have hk : keyOf (list.nodes.alloc node).2 = Function.update (keyOf list.nodes) list.nodes.next (some key) :=
    Store.field_alloc
  have hv : valueOf (list.nodes.alloc node).2 =
      Function.update (valueOf list.nodes) list.nodes.next (some value) := Store.field_alloc
  have hh : height (list.nodes.alloc node).2 = Function.update (height list.nodes) list.nodes.next d := by
    refine Store.field_alloc.trans ?_
    rw [List.length_replicate]
    rfl
  have hl : ∀ i, linkAt (list.nodes.alloc node).2 i =
      Function.update (linkAt list.nodes i) list.nodes.next none := by
    intro i
    refine Store.field_alloc.trans ?_
    rw [List.getElem?_replicate]
    split <;> rfl
  have hpred : ∀ j, pred list.nodes h lo j ≠ list.nodes.next := by
    intro j
    refine hw.ne_next _ (List.mem_cons.mpr ?_)
    exact (pred_mem list.nodes h j lo).imp_right fun hmem =>
      List.mem_append_left hi (mem_onLevel.mp hmem).1
  have hroom : 0 + d ≤ height (list.nodes.alloc node).2 list.nodes.next := by
    rw [hh, Function.update_self]
    omega
  have hupdate : ∀ j, 0 ≤ j → j < 0 + d →
      ((List.range list.level).map (fun j => some (pred list.nodes h lo j)) ++
        List.replicate (d - list.level) list.header)[j]? = some (some (pred list.nodes h lo j)) ∧
      j < height (list.nodes.alloc node).2 (pred list.nodes h lo j) := by
    intro j _ hj
    refine ⟨update_get hw (by omega), ?_⟩
    rw [hh, Function.update_of_ne (hpred j)]
    exact pred_height (by omega) hw
  obtain ⟨nodes', hsplice, hframe, hlink⟩ := splice_spec hroom hupdate
  refine ⟨{ list with level := max list.level d, nodes := nodes', length := list.length + 1 }, ?_, ?_⟩
  · unfold skiplist_insert create_node
    simp only [hdescend, hnext, Outcome.done_bind, found_absent horder hw hno, Bool.false_eq_true,
      if_false, reduceCtorEq, if_true]
    by_cases hgrow : d > list.level
    · simp only [if_pos hgrow]
      rw [show max list.level d = d by omega]
      simp only [Store.alloc_fst]
      rw [hsplice]
      rfl
    · have hrep : List.replicate (d - list.level) list.header = [] := by
        rw [show d - list.level = 0 by omega]
        rfl
      rw [hrep, List.append_nil] at hsplice
      simp only [if_neg hgrow]
      rw [show max list.level d = list.level by omega]
      simp only [Store.alloc_fst]
      rw [hsplice]
      rfl
  · refine ⟨rfl, rfl, by rw [hframe.key, hk], by rw [hframe.value, hv], by rw [hframe.height, hh], ?_,
      rfl, rfl⟩
    intro i
    rw [hlink, hl]
    by_cases hid : i < d
    · rw [if_pos hid, if_pos (by omega)]
    · rw [if_neg hid, if_neg (by omega)]

end Akio.Skiplist
