import Akio.Skiplist.Delete
import Mathlib.Data.Finmap

/-!
# The skip list as a finite map

`edit` and `answer` are what each call means for a finite map. Every sequence of calls gives the answers
of the map, whatever the levels of the nodes are, and leaves the list well formed.
-/

namespace Akio.Skiplist

variable {K V : Type} {list list' : skiplist K V} {h p q d fuel : Nat} {l lo hi : List Nat} {key : K}
  {value : V}

/-- One call, of which the key and the value are not NULL. -/
inductive Op (K V : Type) where
  | insert (key : K) (value : V)
  | search (key : K)
  | delete (key : K)
  | length

inductive Answer (V : Type) where
  | code (r : Int)
  | value (v : Option V)
  | count (n : Nat)

/-- The call with its allocation granted. `random_level` is the answer of `_random_level` should it be
called. -/
def exec (fuel random_level : Nat) (list : skiplist K V) :
    Op K V → Outcome (Option (skiplist K V) × Answer V)
  | .insert key value => do
    let (list, r) ← skiplist_insert fuel true random_level (some list) (some key) (some value)
    return (list, .code r)
  | .search key => do
    let r ← skiplist_search fuel (some list) (some key)
    return (some list, .value r)
  | .delete key => do
    let (list, r) ← skiplist_delete fuel (some list) (some key)
    return (list, .value r)
  | .length => return (some list, .count (skiplist_length (some list)))

/-- The calls in order, with the answer of `_random_level` for each. -/
def execAll (fuel : Nat) (random_level : Nat → Nat) :
    Option (skiplist K V) → List (Op K V) → Outcome (Option (skiplist K V) × List (Answer V))
  | none, _ => .fault
  | some list, [] => return (some list, [])
  | some list, op :: ops => do
    let (list, a) ← exec fuel (random_level 0) list op
    let (list, as) ← execAll fuel (fun n => random_level (n + 1)) list ops
    return (list, a :: as)

/-! ## The finite map -/

theorem keys_nodup (horder : TotalOrder list.compare) (hw : WellFormed list h l) :
    (l.filterMap (keyOf list.nodes)).Nodup := by
  rw [List.Nodup, List.pairwise_filterMap]
  refine hw.sorted.imp ?_
  rintro p q ⟨kq, hkq, kp, hkp, hlt⟩ a ha b hb rfl
  obtain rfl := Option.some.inj (ha.symm.trans hkp)
  obtain rfl := Option.some.inj (hb.symm.trans hkq)
  rw [(horder.eq_zero a a).mpr rfl] at hlt
  omega

theorem keys_length (hkey : ∀ p ∈ l, ∃ k, keyOf list.nodes p = some k) :
    (l.filterMap (keyOf list.nodes)).length = l.length := by
  induction l with
  | nil => rfl
  | cons p l ih =>
    obtain ⟨k, hk⟩ := hkey p List.mem_cons_self
    rw [List.filterMap_cons_some hk, List.length_cons, ih fun q hq => hkey q (List.mem_cons_of_mem p hq),
      List.length_cons]

section Map

variable [DecidableEq K]

def edit (m : Finmap fun _ : K => V) : Op K V → Finmap fun _ : K => V
  | .insert key value => m.insert key value
  | .delete key => m.erase key
  | _ => m

def answer (m : Finmap fun _ : K => V) : Op K V → Answer V
  | .insert .. => .code 1
  | .search key => .value (m.lookup key)
  | .delete key => .value (m.lookup key)
  | .length => .count m.keys.card

def answers (m : Finmap fun _ : K => V) : List (Op K V) → List (Answer V)
  | [] => []
  | op :: ops => answer m op :: answers (edit m op) ops

/-- The list holds the keys and values of the map. -/
def Represents (m : Finmap fun _ : K => V) (list : skiplist K V) (l : List Nat) : Prop :=
  ∀ key value, m.lookup key = some value ↔ Holds list l key value

variable {m : Finmap fun _ : K => V}

theorem Represents.lookup (hm : Represents m list l) {r : Option V}
    (hr : ∀ v, r = some v ↔ Holds list l key v) : m.lookup key = r := by
  apply Option.ext
  intro v
  exact (hm key v).trans (hr v).symm

theorem Represents.card (hm : Represents m list l) (horder : TotalOrder list.compare)
    (hw : WellFormed list h l) : m.keys.card = list.length := by
  have hkeys : m.keys = (l.filterMap (keyOf list.nodes)).toFinset := by
    ext k
    rw [Finmap.mem_keys, ← Finmap.lookup_isSome, List.mem_toFinset, List.mem_filterMap,
      Option.isSome_iff_exists]
    constructor
    · rintro ⟨v, hv⟩
      obtain ⟨p, hp, hpk, -⟩ := (hm k v).mp hv
      exact ⟨p, hp, hpk⟩
    · rintro ⟨p, hp, hpk⟩
      obtain ⟨v, hv⟩ := hw.value p hp
      exact ⟨v, (hm k v).mpr ⟨p, hp, hpk, hv⟩⟩
  rw [hkeys, List.toFinset_card_of_nodup (keys_nodup horder hw), keys_length hw.key, hw.length]

/-! ## One call -/

theorem represents_edited {m' : Finmap fun _ : K => V} {l' : List Nat} {r : Option V}
    (hm : Represents m list l) (hself : m'.lookup key = r) (hother : ∀ k ≠ key, m'.lookup k = m.lookup k)
    (hnew : ∀ v, r = some v ↔ Holds list' l' key v)
    (hkeep : ∀ k ≠ key, ∀ v, Holds list l k v ↔ Holds list' l' k v) : Represents m' list' l' := by
  intro k v
  by_cases hk : k = key
  · subst hk
    rw [hself, hnew]
  · rw [hother k hk, hm k v, hkeep k hk]

theorem represents_insert_present (horder : TotalOrder list.compare) (hw : WellFormed list h l)
    (hm : Represents m list l) (hp : p ∈ l) (hkey : keyOf list.nodes p = some key)
    (hk : keyOf list'.nodes = keyOf list.nodes)
    (hv : valueOf list'.nodes = Function.update (valueOf list.nodes) p (some value)) :
    Represents (m.insert key value) list' l := by
  refine represents_edited hm (Finmap.lookup_insert m) (fun k hne => Finmap.lookup_insert_of_ne m hne) ?_ ?_
  · intro v
    constructor
    · rintro ⟨⟩
      exact ⟨p, hp, by rw [hk, hkey], by rw [hv, Function.update_self]⟩
    · rintro ⟨q, hq, hqkey, hqv⟩
      obtain ⟨lo, hi, rfl, hsplit⟩ := exists_split horder hw.sorted key
      rw [hk] at hqkey
      have hqp := (head_of_key horder hsplit hw hq hqkey).symm.trans (head_of_key horder hsplit hw hp hkey)
      rw [hv, Option.some.inj hqp, Function.update_self] at hqv
      exact hqv
  · intro k hne v
    unfold Holds
    rw [hk, hv]
    have hother : ∀ q, keyOf list.nodes q = some k → q ≠ p := by
      rintro q hq rfl
      exact hne (Option.some.inj (hq.symm.trans hkey))
    constructor
    · rintro ⟨q, hq, hqk, hqv⟩
      exact ⟨q, hq, hqk, by rwa [Function.update_of_ne (hother q hqk)]⟩
    · rintro ⟨q, hq, hqk, hqv⟩
      exact ⟨q, hq, hqk, by rwa [Function.update_of_ne (hother q hqk)] at hqv⟩

theorem represents_insert_absent (hm : Represents m list (lo ++ hi))
    (hins : Inserted list list' lo h q d key value) (hq : ∀ p ∈ lo ++ hi, p ≠ q)
    (hno : ∀ p ∈ lo ++ hi, keyOf list.nodes p ≠ some key) :
    Represents (m.insert key value) list' (lo ++ q :: hi) := by
  have hmem (p : Nat) : p ∈ lo ++ q :: hi ↔ p = q ∨ p ∈ lo ++ hi := mem_middle
  refine represents_edited hm (Finmap.lookup_insert m) (fun k hne => Finmap.lookup_insert_of_ne m hne) ?_ ?_
  · intro v
    unfold Holds
    rw [hins.key, hins.value]
    constructor
    · rintro ⟨⟩
      exact ⟨q, (hmem q).mpr (Or.inl rfl), Function.update_self .., Function.update_self ..⟩
    · rintro ⟨p, hp, hpkey, hpv⟩
      rcases (hmem p).mp hp with rfl | hp
      · rwa [Function.update_self] at hpv
      · rw [Function.update_of_ne (hq p hp)] at hpkey
        exact absurd hpkey (hno p hp)
  · intro k hne v
    unfold Holds
    rw [hins.key, hins.value]
    constructor
    · rintro ⟨p, hp, hpk, hpv⟩
      exact ⟨p, (hmem p).mpr (Or.inr hp), by rwa [Function.update_of_ne (hq p hp)],
        by rwa [Function.update_of_ne (hq p hp)]⟩
    · rintro ⟨p, hp, hpk, hpv⟩
      rcases (hmem p).mp hp with rfl | hp
      · rw [Function.update_self] at hpk
        exact absurd (Option.some.inj hpk).symm hne
      · rw [Function.update_of_ne (hq p hp)] at hpk hpv
        exact ⟨p, hp, hpk, hpv⟩

theorem represents_delete (hm : Represents m list (lo ++ p :: hi)) (hdel : Deleted list list' lo h p)
    (hkey : keyOf list.nodes p = some key) (hoff : ∀ q ∈ lo ++ hi, q ≠ p)
    (hother : ∀ q ∈ lo ++ hi, keyOf list.nodes q ≠ some key) :
    Represents (m.erase key) list' (lo ++ hi) := by
  have hmem (q : Nat) : q ∈ lo ++ p :: hi ↔ q = p ∨ q ∈ lo ++ hi := mem_middle
  refine represents_edited hm (Finmap.lookup_erase key m) (fun k hne => Finmap.lookup_erase_ne hne) ?_ ?_
  · intro v
    unfold Holds
    rw [hdel.key]
    constructor
    · rintro ⟨⟩
    · rintro ⟨q, hq, hqkey, -⟩
      rw [Function.update_of_ne (hoff q hq)] at hqkey
      exact absurd hqkey (hother q hq)
  · intro k hne v
    unfold Holds
    rw [hdel.key, hdel.value]
    constructor
    · rintro ⟨q, hq, hqk, hqv⟩
      rcases (hmem q).mp hq with rfl | hq
      · exact absurd (Option.some.inj (hqk.symm.trans hkey)) hne
      · exact ⟨q, hq, by rwa [Function.update_of_ne (hoff q hq)],
          by rwa [Function.update_of_ne (hoff q hq)]⟩
    · rintro ⟨q, hq, hqk, hqv⟩
      rw [Function.update_of_ne (hoff q hq)] at hqk hqv
      exact ⟨q, (hmem q).mpr (Or.inr hq), hqk, hqv⟩

theorem erase_absent (h : m.lookup key = none) : m.erase key = m := by
  apply Finmap.ext_lookup
  intro k
  by_cases hk : k = key
  · rw [hk, Finmap.lookup_erase, h]
  · exact Finmap.lookup_erase_ne hk

theorem exec_spec (horder : TotalOrder list.compare) (hw : WellFormed list h l) (hm : Represents m list l)
    (hd : 1 ≤ d) (hd32 : d ≤ SKIPLIST_MAXLEVEL) (hfuel : l.length < fuel) (op : Op K V) :
    ∃ list' l', exec fuel d list op = .done (some list', answer m op) ∧ WellFormed list' h l' ∧
      Represents (edit m op) list' l' ∧ list'.compare = list.compare ∧ l'.length ≤ l.length + 1 := by
  cases op with
  | insert key value =>
    obtain ⟨lo, hi, rfl, hsplit, hcase⟩ := exists_search horder hw key
    rw [List.length_append] at hfuel
    rcases hcase with ⟨p, hi', rfl, hkey⟩ | hno
    · obtain ⟨list', hcall, hw', hcompare, hk, hv⟩ :=
        insert_present horder hsplit hw hkey (show lo.length < fuel by omega) true d value
      refine ⟨list', lo ++ p :: hi', ?_, hw', ?_, hcompare, by omega⟩
      · unfold exec
        simp only [hcall, Outcome.done_bind, Outcome.pure_eq]
        rfl
      · exact represents_insert_present horder hw hm (by simp) hkey hk hv
    · obtain ⟨list', hcall, hins⟩ :=
        insert_absent horder hsplit hw hno (show lo.length < fuel by omega) hd32 value
      refine ⟨list', lo ++ list.nodes.next :: hi, ?_,
        wellFormed_inserted hw hins hw.ne_next horder hsplit hno hd hd32, ?_, hins.compare, by simp; omega⟩
      · unfold exec
        simp only [hcall, Outcome.done_bind, Outcome.pure_eq]
        rfl
      · exact represents_insert_absent hm hins (fun p hp => hw.ne_next p (List.mem_cons_of_mem h hp)) hno
  | search key =>
    obtain ⟨r, hcall, hr⟩ := skiplist_search_spec horder hw hfuel key
    refine ⟨list, l, ?_, hw, hm, rfl, by omega⟩
    unfold exec answer
    simp only [hcall, Outcome.done_bind, Outcome.pure_eq, hm.lookup hr]
  | delete key =>
    obtain ⟨lo, hi, rfl, hsplit, hcase⟩ := exists_search horder hw key
    rw [List.length_append] at hfuel
    rcases hcase with ⟨p, hi', rfl, hkey⟩ | hno
    · obtain ⟨list', hcall, hdel, hw'⟩ :=
        delete_present horder hsplit hw hkey (show lo.length < fuel by omega)
      have hnodup := hw.nodup horder
      have hoff : ∀ q ∈ lo ++ hi', q ≠ p :=
        fun q hq => not_deleted hw hdel hnodup q (List.mem_cons_of_mem h hq)
      have hother : ∀ q ∈ lo ++ hi', keyOf list.nodes q ≠ some key := by
        intro q hq hqkey
        have hmem : q ∈ lo ++ p :: hi' := mem_middle.mpr (Or.inr hq)
        exact hoff q hq (Option.some.inj (head_of_key horder hsplit hw hmem hqkey)).symm
      obtain ⟨v, hv⟩ := hw.value p (by simp)
      have hlookup : m.lookup key = valueOf list.nodes p := by
        rw [hv]
        exact (hm key v).mpr ⟨p, by simp, hkey, hv⟩
      refine ⟨list', lo ++ hi', ?_, hw', represents_delete hm hdel hkey hoff hother, hdel.compare,
        by simp; omega⟩
      unfold exec answer
      simp only [hcall, Outcome.done_bind, Outcome.pure_eq, hlookup]
    · have hlookup : m.lookup key = none := by
        rw [Option.eq_none_iff_forall_ne_some]
        intro v hv
        obtain ⟨p, hp, hpkey, -⟩ := (hm key v).mp hv
        exact hno p hp hpkey
      refine ⟨list, lo ++ hi, ?_, hw, ?_, rfl, by omega⟩
      · unfold exec answer
        simp only [delete_absent horder hsplit hw hno (show lo.length < fuel by omega), Outcome.done_bind,
          Outcome.pure_eq, hlookup]
      · show Represents (m.erase key) list (lo ++ hi)
        rw [erase_absent hlookup]
        exact hm
  | length =>
    refine ⟨list, l, ?_, hw, hm, rfl, by omega⟩
    unfold exec answer
    rw [hm.card horder hw]
    rfl

/-! ## Whole runs -/

theorem execAll_spec (horder : TotalOrder list.compare) (hw : WellFormed list h l)
    (hm : Represents m list l) (ops : List (Op K V)) {random_level : Nat → Nat}
    (hlevels : ∀ n, 1 ≤ random_level n ∧ random_level n ≤ SKIPLIST_MAXLEVEL)
    (hfuel : l.length + ops.length < fuel) :
    ∃ list' l', execAll fuel random_level (some list) ops = .done (some list', answers m ops) ∧
      WellFormed list' h l' ∧ list'.compare = list.compare := by
  induction ops generalizing list l m random_level with
  | nil => exact ⟨list, l, rfl, hw, rfl⟩
  | cons op ops ih =>
    rw [List.length_cons] at hfuel
    obtain ⟨list1, l1, hexec, hw1, hm1, hcompare1, hlen1⟩ :=
      exec_spec horder hw hm (hlevels 0).1 (hlevels 0).2 (show l.length < fuel by omega) op
    obtain ⟨list', l', hrest, hw', hcompare'⟩ :=
      ih (hcompare1 ▸ horder) hw1 hm1 (fun n => hlevels (n + 1)) (by omega)
    refine ⟨list', l', ?_, hw', hcompare'.trans hcompare1⟩
    unfold execAll
    simp only [hexec, Outcome.done_bind, hrest, Outcome.pure_eq]
    rfl

omit [DecidableEq K] in
theorem new_wellFormed (compare : K → K → Int) : ∃ list : skiplist K V,
    skiplist_new true true compare = .done (some list) ∧ list.compare = compare ∧ WellFormed list 0 [] := by
  let header : skiplist_node K V := ⟨none, none, List.replicate SKIPLIST_MAXLEVEL none⟩
  let nodes : Store (skiplist_node K V) := (Store.empty.alloc header).2.adjust 0 fun n =>
    { n with forward := List.replicate SKIPLIST_MAXLEVEL none }
  have hcell : nodes.cell 0 = some header := Store.adjust_cell_self
  have hlive : (Store.empty.alloc header).2.Live 0 := by
    rw [Store.alloc_live]
    exact Or.inl rfl
  refine ⟨⟨1, 0, compare, some 0, nodes⟩, ?_, rfl, ?_⟩
  · unfold skiplist_new create_node
    have hmodify := Store.modify_live (f := fun n : skiplist_node K V =>
      { n with forward := List.replicate SKIPLIST_MAXLEVEL none }) hlive
    simp only [Bool.not_true, Bool.false_eq_true, if_false, if_true]
    exact (congrArg (· >>= _) hmodify).trans rfl
  · refine ⟨rfl, (Store.field_of_cell hcell).trans rfl, by simp, by simp, by simp, by simp, by simp,
      List.Pairwise.nil, ?_, by simp, by simp, Or.inl rfl, rfl⟩
    intro i hi32
    refine (Store.field_of_cell hcell).trans ?_
    simp [header, hi32]

theorem represents_empty : Represents (∅ : Finmap fun _ : K => V) list [] := by
  intro key value
  rw [Finmap.lookup_empty]
  simp [Holds]

/-- Every sequence of calls on a new list gives the answers of the finite map, whatever `_random_level`
answers. -/
theorem skiplist_refines_map {compare : K → K → Int} (horder : TotalOrder compare) (ops : List (Op K V)) :
    ∃ list, skiplist_new true true compare = .done (some list) ∧ ∀ random_level : Nat → Nat,
      (∀ n, 1 ≤ random_level n ∧ random_level n ≤ SKIPLIST_MAXLEVEL) → ∀ fuel > ops.length,
        ∃ list', execAll fuel random_level (some list) ops = .done (some list', answers ∅ ops) := by
  obtain ⟨list, hnew, hcompare, hw⟩ := new_wellFormed (V := V) compare
  refine ⟨list, hnew, ?_⟩
  intro random_level hlevels fuel hfuel
  obtain ⟨list', l', hrun, -, -⟩ :=
    execAll_spec (hcompare ▸ horder) hw represents_empty ops hlevels (by simpa using hfuel)
  exact ⟨list', hrun⟩

/-- A `compare` for runs on fixed input. -/
def compareNat (a b : Nat) : Int := a - b

theorem compareNat_order : TotalOrder compareNat := by
  unfold compareNat
  exact ⟨fun a b => by omega, fun a b => by omega, fun a b c => by omega⟩

theorem skiplist_refines_map_sample : ∃ list : skiplist Nat Nat,
    skiplist_new true true compareNat = .done (some list) ∧
    ∀ random_level : Nat → Nat, (∀ n, 1 ≤ random_level n ∧ random_level n ≤ SKIPLIST_MAXLEVEL) →
      ∀ fuel > 4, ∃ list', execAll fuel random_level (some list)
        [.insert 2 7, .insert 1 8, .delete 2, .search 1] = .done (some list',
          answers ∅ [.insert 2 7, .insert 1 8, .delete 2, .search 1]) :=
  skiplist_refines_map compareNat_order [.insert 2 7, .insert 1 8, .delete 2, .search 1]

/-! ## The levels -/

/-- The nodes `l` in order of their keys, the nodes of each level in their order, and the level and the
length of the list. -/
structure Levels (list : skiplist K V) (h : Nat) (l : List Nat) : Prop where
  header : list.header = some h
  sorted : l.Pairwise (Before list)
  length : list.length = l.length
  level_zero : Chain (linkAt list.nodes 0) (linkAt list.nodes 0 h) l none
  level_chain : ∀ i < SKIPLIST_MAXLEVEL, Chain (linkAt list.nodes i) (linkAt list.nodes i h)
    (l.filter fun p => i < height list.nodes p) none
  above : ∀ i < SKIPLIST_MAXLEVEL, list.level ≤ i → linkAt list.nodes i h = none
  greatest : ∀ p ∈ l, height list.nodes p ≤ list.level
  reached : l ≠ [] → ∃ p ∈ l, height list.nodes p = list.level
  empty : l = [] → list.level = 1

omit [DecidableEq K] in
theorem WellFormed.levels (hw : WellFormed list h l) : Levels list h l := by
  refine ⟨hw.header, hw.sorted, hw.length, ?_, hw.chain, ?_, hw.level_ge, ?_, ?_⟩
  · have hzero := hw.chain 0 (by decide)
    rwa [onLevel_zero hw.height_pos] at hzero
  · intro i hi32 hi
    exact (header_none_iff (hw.chain _ hi32)).mpr fun p hp => (hw.level_ge p hp).trans hi
  · intro hne
    rcases hw.level_eq with hone | hex
    · obtain ⟨p, hp⟩ := List.exists_mem_of_ne_nil l hne
      have := hw.height_pos p hp
      have := hw.level_ge p hp
      exact ⟨p, hp, by omega⟩
    · exact hex
  · rintro rfl
    rcases hw.level_eq with hone | ⟨p, hp, -⟩
    · exact hone
    · cases hp

/-- Every sequence of calls on a new list keeps the levels in order. -/
theorem skiplist_levels_of_run {compare : K → K → Int} (horder : TotalOrder compare) (ops : List (Op K V))
    {random_level : Nat → Nat} (hlevels : ∀ n, 1 ≤ random_level n ∧ random_level n ≤ SKIPLIST_MAXLEVEL)
    {fuel : Nat} (hfuel : ops.length < fuel) :
    ∃ list list' as h l, skiplist_new true true compare = .done (some list) ∧
      execAll fuel random_level (some list) ops = .done (some list', as) ∧ Levels list' h l := by
  obtain ⟨list, hnew, hcompare, hw⟩ := new_wellFormed (V := V) compare
  obtain ⟨list', l', hrun, hw', -⟩ :=
    execAll_spec (hcompare ▸ horder) hw represents_empty ops hlevels (by simpa using hfuel)
  exact ⟨list, list', _, 0, l', hnew, hrun, hw'.levels⟩

theorem skiplist_levels_of_run_sample : ∃ (list list' : skiplist Nat Nat) (as : List (Answer Nat)) (h : Nat)
    (l : List Nat), skiplist_new true true compareNat = .done (some list) ∧
    execAll 4 (fun n => n % 2 + 1) (some list) [.insert 2 7, .insert 1 8, .delete 2] =
      .done (some list', as) ∧ Levels list' h l :=
  skiplist_levels_of_run compareNat_order [.insert 2 7, .insert 1 8, .delete 2]
    (fun n => by simp only [SKIPLIST_MAXLEVEL]; omega) (by decide)

end Map

end Akio.Skiplist
