import Akio.Skiplist.Model

/-!
# Well-formed skip lists and the search

`l` are the nodes of the list in order. The nodes of level `i` are those of height above `i`. For a key,
`lo` are the nodes before it and `hi` the others, and the search leaves on each level the last node of
`lo` there.
-/

namespace Akio.Skiplist

variable {K V : Type}

def linkAt (nodes : Store (skiplist_node K V)) (i : Nat) : Nat → Ptr :=
  nodes.field (fun n => n.forward[i]?.join) none

def height (nodes : Store (skiplist_node K V)) : Nat → Nat := nodes.field (·.forward.length) 0

def keyOf (nodes : Store (skiplist_node K V)) : Nat → Option K := nodes.field (·.key) none

def valueOf (nodes : Store (skiplist_node K V)) : Nat → Option V := nodes.field (·.value) none

/-- The nodes of `l` that are on level `i`. -/
def onLevel (nodes : Store (skiplist_node K V)) (i : Nat) (l : List Nat) : List Nat :=
  l.filter fun p => i < height nodes p

/-- `compare` is a total order: 0 on equal keys only, negative the other way round positive. -/
structure TotalOrder (compare : K → K → Int) : Prop where
  eq_zero : ∀ a b, compare a b = 0 ↔ a = b
  swap : ∀ a b, compare a b < 0 ↔ 0 < compare b a
  trans : ∀ a b c, compare a b < 0 → compare b c < 0 → compare a c < 0

/-- The key of node `p` is less than `key`. -/
def Below (list : skiplist K V) (key : K) (p : Nat) : Prop :=
  ∃ k, keyOf list.nodes p = some k ∧ list.compare k key < 0

/-- The key of node `p` is less than that of node `q`. -/
def Before (list : skiplist K V) (p q : Nat) : Prop :=
  ∃ key, keyOf list.nodes q = some key ∧ Below list key p

structure WellFormed (list : skiplist K V) (h : Nat) (l : List Nat) : Prop where
  header : list.header = some h
  header_height : height list.nodes h = SKIPLIST_MAXLEVEL
  header_off : h ∉ l
  key : ∀ p ∈ l, ∃ k, keyOf list.nodes p = some k
  value : ∀ p ∈ l, ∃ v, valueOf list.nodes p = some v
  height_pos : ∀ p ∈ l, 0 < height list.nodes p
  height_le : ∀ p ∈ l, height list.nodes p ≤ SKIPLIST_MAXLEVEL
  sorted : l.Pairwise (Before list)
  chain : ∀ i < SKIPLIST_MAXLEVEL,
    Chain (linkAt list.nodes i) (linkAt list.nodes i h) (onLevel list.nodes i l) none
  level_pos : 0 < list.level
  level_ge : ∀ p ∈ l, height list.nodes p ≤ list.level
  level_eq : list.level = 1 ∨ ∃ p ∈ l, height list.nodes p = list.level
  length : list.length = l.length

variable {list : skiplist K V} {nodes : Store (skiplist_node K V)} {h p x : Nat} {l lo hi a b : List Nat}
  {key k : K} {i fuel : Nat}

/-! ## Reading a node -/

theorem exists_cell_of_key (hk : keyOf nodes p = some k) : ∃ n, nodes.cell p = some n ∧ n.key = some k := by
  unfold keyOf Store.field at hk
  cases hn : nodes.cell p with
  | none => simp [hn] at hk
  | some n => exact ⟨n, rfl, by simpa [hn] using hk⟩

theorem exists_cell_of_height (hi : i < height nodes p) :
    ∃ n, nodes.cell p = some n ∧ i < n.forward.length := by
  unfold height Store.field at hi
  cases hn : nodes.cell p with
  | none => simp [hn] at hi
  | some n => exact ⟨n, rfl, by simpa [hn] using hi⟩

theorem live_of_height (hi : i < height nodes p) : nodes.Live p := by
  obtain ⟨n, hn, -⟩ := exists_cell_of_height hi
  exact Store.live_of_cell hn

theorem getForward_spec (hi : i < height nodes p) :
    getForward nodes (some p) i = .done (linkAt nodes i p) := by
  obtain ⟨n, hn, hlt⟩ := exists_cell_of_height hi
  unfold getForward linkAt
  rw [Store.read_of_cell hn, Outcome.done_bind, Store.field_of_cell hn, List.getElem?_eq_getElem hlt]
  rfl

theorem compareNode_spec (hk : keyOf list.nodes p = some k) :
    compareNode list (some p) key = .done (list.compare k key) := by
  obtain ⟨n, hn, hkey⟩ := exists_cell_of_key hk
  unfold compareNode
  rw [Store.read_of_cell hn, Outcome.done_bind, hkey]
  rfl

/-! ## Where a key belongs -/

/-- The list splits into the nodes before the key and the others. -/
structure Split (list : skiplist K V) (key : K) (lo hi : List Nat) : Prop where
  lo : ∀ p ∈ lo, Below list key p
  hi : ∀ p ∈ hi, ¬ Below list key p

theorem exists_split (horder : TotalOrder list.compare) (hsorted : l.Pairwise (Before list)) (key : K) :
    ∃ lo hi, l = lo ++ hi ∧ Split list key lo hi := by
  induction l with
  | nil => exact ⟨[], [], rfl, by simp, by simp⟩
  | cons p l ih =>
    obtain ⟨hp, hsorted⟩ := List.pairwise_cons.mp hsorted
    by_cases hbelow : Below list key p
    · obtain ⟨lo, hi, rfl, hsplit⟩ := ih hsorted
      refine ⟨p :: lo, hi, rfl, ?_, hsplit.hi⟩
      intro q hq
      rcases List.mem_cons.mp hq with rfl | hq
      · exact hbelow
      · exact hsplit.lo q hq
    · refine ⟨[], p :: l, rfl, by simp, ?_⟩
      intro q hq
      rcases List.mem_cons.mp hq with rfl | hq
      · exact hbelow
      · rintro ⟨b, hb, hlt⟩
        obtain ⟨b', hb', k, hk, hkb⟩ := hp q hq
        obtain rfl := Option.some.inj (hb.symm.trans hb')
        exact hbelow ⟨k, hk, horder.trans _ _ _ hkb hlt⟩

/-! ## The loops -/

/-- The node that the search leaves on level `i`: the last of `lo` there, or the header. -/
def pred (nodes : Store (skiplist_node K V)) (h : Nat) (lo : List Nat) (i : Nat) : Nat :=
  (onLevel nodes i lo).getLastD h

theorem advance_spec (hx : i < height list.nodes x)
    (hchain : Chain (linkAt list.nodes i) (linkAt list.nodes i x) (a ++ b) none)
    (ha : ∀ p ∈ a, i < height list.nodes p ∧ Below list key p)
    (hb : ∀ p ∈ b, ∃ k, keyOf list.nodes p = some k ∧ ¬ list.compare k key < 0)
    (hfuel : a.length < fuel) :
    advance list key i fuel (some x) = .done (some (a.getLastD x)) := by
  induction a generalizing x fuel with
  | nil =>
    obtain ⟨fuel, rfl⟩ : ∃ n, fuel = n + 1 := ⟨fuel - 1, by omega⟩
    unfold advance
    rw [getForward_spec hx, Outcome.done_bind]
    rcases b with _ | ⟨q, b⟩
    · rw [if_pos (Chain.nil_iff.mp hchain)]
      rfl
    · obtain ⟨hq, -⟩ := hchain
      obtain ⟨k, hk, hge⟩ := hb q List.mem_cons_self
      rw [hq, if_neg (by simp), compareNode_spec hk, Outcome.done_bind, if_neg hge]
      rfl
  | cons q a ih =>
    obtain ⟨fuel, rfl⟩ : ∃ n, fuel = n + 1 := ⟨fuel - 1, by omega⟩
    obtain ⟨hq, hrest⟩ := hchain
    obtain ⟨hqi, k, hk, hlt⟩ := ha q List.mem_cons_self
    unfold advance
    rw [getForward_spec hx, Outcome.done_bind, hq, if_neg (by simp), compareNode_spec hk,
      Outcome.done_bind, if_pos hlt, List.getLastD_cons]
    exact ih hqi hrest (fun p hp => ha p (List.mem_cons_of_mem q hp)) (by simpa using hfuel)

theorem onLevel_append (nodes : Store (skiplist_node K V)) (i : Nat) (l l' : List Nat) :
    onLevel nodes i (l ++ l') = onLevel nodes i l ++ onLevel nodes i l' := by
  unfold onLevel
  exact List.filter_append l l'

theorem mem_onLevel : p ∈ onLevel nodes i l ↔ p ∈ l ∧ i < height nodes p := by
  unfold onLevel
  simp

theorem pred_rest (hi32 : i + 1 ≤ SKIPLIST_MAXLEVEL) (hw : WellFormed list h (lo ++ hi)) :
    i < height list.nodes (pred list.nodes h lo (i + 1)) ∧ ∃ a,
      Chain (linkAt list.nodes i) (linkAt list.nodes i (pred list.nodes h lo (i + 1)))
        (a ++ onLevel list.nodes i hi) none ∧
      (∀ p ∈ a, p ∈ onLevel list.nodes i lo) ∧ a.length ≤ lo.length ∧
      a.getLastD (pred list.nodes h lo (i + 1)) = pred list.nodes h lo i := by
  have hchain := hw.chain i hi32
  rw [onLevel_append] at hchain
  rcases List.eq_nil_or_concat (onLevel list.nodes (i + 1) lo) with hnil | ⟨m, x, hm⟩
  · have hpred : pred list.nodes h lo (i + 1) = h := by
      unfold pred
      rw [hnil]
      rfl
    rw [hpred, hw.header_height]
    exact ⟨hi32, onLevel list.nodes i lo, hchain, fun p hp => hp, List.length_filter_le _ _, rfl⟩
  · have hpred : pred list.nodes h lo (i + 1) = x := by
      unfold pred
      rw [hm, List.concat_eq_append]
      simp
    have hx : x ∈ onLevel list.nodes (i + 1) lo := by
      rw [hm, List.concat_eq_append]
      simp
    obtain ⟨hxlo, hxi⟩ := mem_onLevel.mp hx
    obtain ⟨a₀, a, ha⟩ := List.append_of_mem (mem_onLevel.mpr ⟨hxlo, by omega⟩ : x ∈ onLevel list.nodes i lo)
    rw [hpred]
    refine ⟨by omega, a, ?_, ?_, ?_, ?_⟩
    · rw [ha, List.append_assoc, Chain.append_iff] at hchain
      obtain ⟨c, -, -, hrest⟩ := hchain
      exact hrest
    · intro p hp
      rw [ha]
      simp [hp]
    · have hle : (onLevel list.nodes i lo).length ≤ lo.length := List.length_filter_le _ _
      rw [ha] at hle
      simp at hle
      omega
    · unfold pred
      rw [ha, List.getLastD_eq_getLast?, List.getLastD_eq_getLast?, List.getLast?_append]
      simp [List.getLast?_cons]

theorem descend_spec (hsplit : Split list key lo hi) (hw : WellFormed list h (lo ++ hi))
    (hfuel : lo.length < fuel) (hi32 : i ≤ SKIPLIST_MAXLEVEL) (update : List Ptr) :
    descend list key fuel i (some (pred list.nodes h lo i)) update =
      .done (some (pred list.nodes h lo 0),
        (List.range i).map (fun j => some (pred list.nodes h lo j)) ++ update) := by
  induction i generalizing update with
  | zero => rfl
  | succ i ih =>
    obtain ⟨hx, a, hchain, ha, hlen, hlast⟩ := pred_rest hi32 hw
    have hadvance : advance list key i fuel (some (pred list.nodes h lo (i + 1))) =
        .done (some (pred list.nodes h lo i)) := by
      rw [← hlast]
      refine advance_spec hx hchain ?_ ?_ (by omega)
      · intro p hp
        obtain ⟨hplo, hpi⟩ := mem_onLevel.mp (ha p hp)
        exact ⟨hpi, hsplit.lo p hplo⟩
      · intro p hp
        have hphi := (mem_onLevel.mp hp).1
        obtain ⟨k, hk⟩ := hw.key p (List.mem_append_right lo hphi)
        exact ⟨k, hk, fun hlt => hsplit.hi p hphi ⟨k, hk, hlt⟩⟩
    unfold descend
    rw [hadvance, Outcome.done_bind, ih (by omega), List.range_succ, List.map_append,
      List.append_assoc]
    rfl

/-! ## Where the search ends -/

theorem pred_mem (nodes : Store (skiplist_node K V)) (h i : Nat) (lo : List Nat) :
    pred nodes h lo i = h ∨ pred nodes h lo i ∈ onLevel nodes i lo := by
  unfold pred
  exact List.mem_cons.mp List.getLastD_mem_cons

theorem pred_height (hi32 : i < SKIPLIST_MAXLEVEL) (hw : WellFormed list h (lo ++ hi)) :
    i < height list.nodes (pred list.nodes h lo i) := by
  rcases pred_mem list.nodes h i lo with heq | hmem
  · rw [heq, hw.header_height]
    exact hi32
  · exact (mem_onLevel.mp hmem).2

theorem link_pred (hi32 : i < SKIPLIST_MAXLEVEL) (hw : WellFormed list h (lo ++ hi)) :
    linkAt list.nodes i (pred list.nodes h lo i) = (onLevel list.nodes i hi).head? := by
  have hchain := hw.chain i hi32
  rw [onLevel_append, Chain.append_iff] at hchain
  obtain ⟨c, hlo, hhi⟩ := hchain
  rw [← hhi.head_eq]
  exact hlo.getLastD_link

theorem onLevel_zero (hpos : ∀ p ∈ l, 0 < height nodes p) : onLevel nodes 0 l = l := by
  unfold onLevel
  rw [List.filter_eq_self]
  intro p hp
  simpa using hpos p hp

theorem onLevel_eq_nil (hle : ∀ p ∈ l, height nodes p ≤ i) : onLevel nodes i l = [] := by
  unfold onLevel
  rw [List.filter_eq_nil_iff]
  intro p hp
  simpa using hle p hp

theorem WellFormed.level_le (hw : WellFormed list h l) : list.level ≤ SKIPLIST_MAXLEVEL := by
  rcases hw.level_eq with h1 | ⟨p, hp, hlevel⟩
  · rw [h1]
    decide
  · rw [← hlevel]
    exact hw.height_le p hp

theorem search_spec (hsplit : Split list key lo hi) (hw : WellFormed list h (lo ++ hi))
    (hfuel : lo.length < fuel) :
    descend list key fuel list.level list.header [] =
      .done (some (pred list.nodes h lo 0),
        (List.range list.level).map fun j => some (pred list.nodes h lo j)) ∧
    getForward list.nodes (some (pred list.nodes h lo 0)) 0 = .done hi.head? := by
  have hstart : pred list.nodes h lo list.level = h := by
    unfold pred
    rw [onLevel_eq_nil fun p hp => hw.level_ge p (List.mem_append_left hi hp)]
    rfl
  constructor
  · have hdescend := descend_spec hsplit hw hfuel hw.level_le []
    rw [hstart, List.append_nil] at hdescend
    rw [hw.header, hdescend]
  · rw [getForward_spec (pred_height (by decide) hw), link_pred (by decide) hw,
      onLevel_zero fun p hp => hw.height_pos p (List.mem_append_right lo hp)]

theorem head_of_key (horder : TotalOrder list.compare) (hsplit : Split list key lo hi)
    (hw : WellFormed list h (lo ++ hi)) (hp : p ∈ lo ++ hi) (hkey : keyOf list.nodes p = some key) :
    hi.head? = some p := by
  have hself : list.compare key key = 0 := (horder.eq_zero key key).mpr rfl
  rcases List.mem_append.mp hp with hlo | hhi
  · obtain ⟨k, hk, hlt⟩ := hsplit.lo p hlo
    obtain rfl := Option.some.inj (hk.symm.trans hkey)
    omega
  · cases hi with
    | nil => cases hhi
    | cons q hi =>
      rcases List.mem_cons.mp hhi with rfl | hhi
      · rfl
      · -- A node behind the first would have to come after `key`.
        obtain ⟨hq, -⟩ := List.pairwise_cons.mp (List.pairwise_append.mp hw.sorted).2.1
        obtain ⟨k, hk, hbelow⟩ := hq p hhi
        obtain rfl := Option.some.inj (hk.symm.trans hkey)
        exact absurd hbelow (hsplit.hi q List.mem_cons_self)

theorem found_present (horder : TotalOrder list.compare) (hkey : keyOf list.nodes p = some key) :
    found list (some p) key = .done true := by
  unfold found
  rw [if_neg (by simp), compareNode_spec hkey, Outcome.done_bind]
  simp [horder.eq_zero]

theorem found_absent (horder : TotalOrder list.compare) (hw : WellFormed list h (lo ++ hi))
    (hno : ∀ p ∈ lo ++ hi, keyOf list.nodes p ≠ some key) : found list hi.head? key = .done false := by
  unfold found
  cases hi with
  | nil => rfl
  | cons p hi =>
    obtain ⟨k, hk⟩ := hw.key p (by simp)
    have hne : k ≠ key := fun heq => hno p (by simp) (heq ▸ hk)
    rw [List.head?_cons, if_neg (by simp), compareNode_spec hk, Outcome.done_bind]
    simp [horder.eq_zero, hne]

theorem exists_search (horder : TotalOrder list.compare) (hw : WellFormed list h l) (key : K) :
    ∃ lo hi, l = lo ++ hi ∧ Split list key lo hi ∧
      ((∃ p hi', hi = p :: hi' ∧ keyOf list.nodes p = some key) ∨
        ∀ p ∈ l, keyOf list.nodes p ≠ some key) := by
  obtain ⟨lo, hi, rfl, hsplit⟩ := exists_split horder hw.sorted key
  refine ⟨lo, hi, rfl, hsplit, ?_⟩
  by_cases hno : ∀ p ∈ lo ++ hi, keyOf list.nodes p ≠ some key
  · exact Or.inr hno
  · simp only [not_forall, not_not] at hno
    obtain ⟨p, hp, hkey⟩ := hno
    obtain ⟨hi', rfl⟩ := List.head?_eq_some_iff.mp (head_of_key horder hsplit hw hp hkey)
    exact Or.inl ⟨p, hi', rfl, hkey⟩

/-! ## `skiplist_search` -/

/-- The map of the keys and values of the nodes of `l`. -/
def Holds (list : skiplist K V) (l : List Nat) (key : K) (value : V) : Prop :=
  ∃ p ∈ l, keyOf list.nodes p = some key ∧ valueOf list.nodes p = some value

theorem exists_cell_of_value {v : V} (hv : valueOf nodes p = some v) :
    ∃ n, nodes.cell p = some n ∧ n.value = some v := by
  unfold valueOf Store.field at hv
  cases hn : nodes.cell p with
  | none => simp [hn] at hv
  | some n => exact ⟨n, rfl, by simpa [hn] using hv⟩

theorem skiplist_search_spec (horder : TotalOrder list.compare) (hw : WellFormed list h l)
    (hfuel : l.length < fuel) (key : K) : ∃ r,
    skiplist_search fuel (some list) (some key) = .done r ∧ ∀ v, r = some v ↔ Holds list l key v := by
  obtain ⟨lo, hi, rfl, hsplit, hcase⟩ := exists_search horder hw key
  rw [List.length_append] at hfuel
  obtain ⟨hdescend, hnext⟩ := search_spec hsplit hw (show lo.length < fuel by omega)
  unfold skiplist_search
  rcases hcase with ⟨p, hi', rfl, hkey⟩ | hno
  · have hmem : p ∈ lo ++ p :: hi' := by simp
    obtain ⟨v, hv⟩ := hw.value p hmem
    obtain ⟨n, hn, hnv⟩ := exists_cell_of_value hv
    refine ⟨some v, ?_, ?_⟩
    · simp only [hdescend, Outcome.done_bind, hnext, List.head?_cons, found_present horder hkey, if_true,
        Store.read_of_cell hn, hnv, Outcome.pure_eq]
    · intro w
      constructor
      · rintro ⟨⟩
        exact ⟨p, hmem, hkey, hv⟩
      · rintro ⟨q, hq, hqkey, hqv⟩
        obtain rfl := Option.some.inj (head_of_key horder hsplit hw hq hqkey)
        exact hv.symm.trans hqv
  · refine ⟨none, ?_, ?_⟩
    · simp [hdescend, hnext, found_absent horder hw hno]
    · intro v
      constructor
      · rintro ⟨⟩
      · rintro ⟨q, hq, hqkey, -⟩
        exact absurd hqkey (hno q hq)

end Akio.Skiplist
