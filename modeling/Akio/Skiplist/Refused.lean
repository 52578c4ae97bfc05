import Akio.Skiplist.Refine

/-!
# Insertions without memory

`skiplist_insert` does not look at what `_create_node` returned before it writes to the node.
-/

namespace Akio.Skiplist

variable {K V : Type} {list : skiplist K V} {h d fuel : Nat} {l lo hi : List Nat} {key : K} {value : V}

/-- The call, where `malloc` is what an allocation answers. -/
def attempt (fuel : Nat) (malloc : Bool) (random_level : Nat) (list : skiplist K V) :
    Op K V → Outcome (Option (skiplist K V) × Answer V)
  | .insert key value => do
    let (list, r) ← skiplist_insert fuel malloc random_level (some list) (some key) (some value)
    return (list, .code r)
  | op => exec fuel random_level list op

/-- The calls in order, with the answers of `malloc` and of `_random_level` for each. -/
def attemptAll (fuel : Nat) (malloc : Nat → Bool) (random_level : Nat → Nat) :
    Option (skiplist K V) → List (Op K V) → Outcome (Option (skiplist K V) × List (Answer V))
  | none, _ => .fault
  | some list, [] => return (some list, [])
  | some list, op :: ops => do
    let (list, a) ← attempt fuel (malloc 0) (random_level 0) list op
    let (list, as) ← attemptAll fuel (fun n => malloc (n + 1)) (fun n => random_level (n + 1)) list ops
    return (list, a :: as)

theorem splice_null {update : List Ptr} {u n : Nat} {nodes : Store (skiplist_node K V)}
    (hu : update[0]? = some (some u)) (hlt : 0 < height nodes u) : splice none update (n + 1) 0 nodes = .fault := by
  unfold splice
  rw [hu, Outcome.ofOption_some, Outcome.done_bind, getForward_spec hlt, Outcome.done_bind]
  rfl

theorem insert_refused (horder : TotalOrder list.compare) (hsplit : Split list key lo hi)
    (hw : WellFormed list h (lo ++ hi)) (hno : ∀ p ∈ lo ++ hi, keyOf list.nodes p ≠ some key)
    (hfuel : lo.length < fuel) (hd : 1 ≤ d) (value : V) :
    skiplist_insert fuel false d (some list) (some key) (some value) = .fault := by
  obtain ⟨hdescend, hnext⟩ := search_spec hsplit hw hfuel
  obtain ⟨n, rfl⟩ : ∃ n, d = n + 1 := ⟨d - 1, by omega⟩
  have hfirst := pred_height (show 0 < SKIPLIST_MAXLEVEL by decide) hw
  have hsplice (rest : List Ptr) (hrest : (((List.range list.level).map fun j => some (pred list.nodes h lo j)) ++
      rest)[0]? = some (some (pred list.nodes h lo 0))) := splice_null (n := n) hrest hfirst
  unfold skiplist_insert create_node
  simp only [hdescend, hnext, Outcome.done_bind, found_absent horder hw hno, Bool.false_eq_true,
    if_false, reduceCtorEq]
  by_cases hgrow : n + 1 > list.level
  · simp only [if_pos hgrow]
    rw [hsplice _ (update_get hw (by omega))]
    rfl
  · simp only [if_neg hgrow]
    have hlevel : 0 < list.level := by omega
    rw [← List.append_nil ((List.range list.level).map _), hsplice _ (by simp [hlevel])]
    rfl

section Map

variable [DecidableEq K] {m : Finmap fun _ : K => V} {op : Op K V}

/-- The call is the insertion of a new key, and there is no memory for it. -/
def starves (m : Finmap fun _ : K => V) (malloc : Bool) : Op K V → Bool
  | .insert key _ => !malloc && (m.lookup key).isNone
  | _ => false

def starved (m : Finmap fun _ : K => V) (malloc : Nat → Bool) : List (Op K V) → Bool
  | [] => false
  | op :: ops => starves m (malloc 0) op || starved (edit m op) (fun n => malloc (n + 1)) ops

theorem attempt_starves (horder : TotalOrder list.compare) (hw : WellFormed list h l) (hm : Represents m list l)
    (hd : 1 ≤ d) (hfuel : l.length < fuel) {malloc : Bool} (hop : starves m malloc op = true) :
    attempt fuel malloc d list op = .fault := by
  cases op with
  | insert key value =>
    obtain ⟨hrefused, hnew⟩ := Bool.and_eq_true_iff.mp hop
    obtain rfl : malloc = false := by simpa using hrefused
    obtain ⟨lo, hi, rfl, hsplit, hcase⟩ := exists_search horder hw key
    rw [List.length_append] at hfuel
    rcases hcase with ⟨p, hi', rfl, hkey⟩ | hno
    · obtain ⟨v, hv⟩ := hw.value p (by simp)
      rw [(hm key v).mpr ⟨p, by simp, hkey, hv⟩] at hnew
      cases hnew
    · have hcall := insert_refused horder hsplit hw hno (show lo.length < fuel by omega) hd value
      exact (congrArg (· >>= _) hcall).trans rfl
  | search key => cases hop
  | delete key => cases hop
  | length => cases hop

theorem attempt_granted (horder : TotalOrder list.compare) (hw : WellFormed list h l) (hm : Represents m list l)
    (hd : 1 ≤ d) (hd32 : d ≤ SKIPLIST_MAXLEVEL) (hfuel : l.length < fuel) {malloc : Bool}
    (hop : starves m malloc op = false) :
    ∃ list' l', attempt fuel malloc d list op = .done (some list', answer m op) ∧ WellFormed list' h l' ∧
      Represents (edit m op) list' l' ∧ list'.compare = list.compare ∧ l'.length ≤ l.length + 1 := by
  cases malloc with
  | true =>
    have hsame : attempt fuel true d list op = exec fuel d list op := by cases op <;> rfl
    rw [hsame]
    exact exec_spec horder hw hm hd hd32 hfuel op
  | false =>
    cases op with
    | insert key value =>
      obtain ⟨lo, hi, rfl, hsplit, hcase⟩ := exists_search horder hw key
      rw [List.length_append] at hfuel
      rcases hcase with ⟨p, hi', rfl, hkey⟩ | hno
      · obtain ⟨list', hcall, hw', hcompare, hk, hv⟩ :=
          insert_present horder hsplit hw hkey (show lo.length < fuel by omega) false d value
        refine ⟨list', lo ++ p :: hi', ?_, hw', ?_, hcompare, by omega⟩
        · unfold attempt
          simp only [hcall, Outcome.done_bind, Outcome.pure_eq]
          rfl
        · exact represents_insert_present horder hw hm (by simp) hkey hk hv
      · -- A key that is not there is a new one.
        have hnone : m.lookup key = none := by
          rw [Option.eq_none_iff_forall_ne_some]
          intro v hv
          obtain ⟨p, hp, hpkey, -⟩ := (hm key v).mp hv
          exact hno p hp hpkey
        simp [starves, hnone] at hop
    | search key => exact exec_spec horder hw hm hd hd32 hfuel (.search key)
    | delete key => exact exec_spec horder hw hm hd hd32 hfuel (.delete key)
    | length => exact exec_spec horder hw hm hd hd32 hfuel .length

theorem attemptAll_spec (horder : TotalOrder list.compare) (hw : WellFormed list h l) (hm : Represents m list l)
    (ops : List (Op K V)) {malloc : Nat → Bool} {random_level : Nat → Nat}
    (hlevels : ∀ n, 1 ≤ random_level n ∧ random_level n ≤ SKIPLIST_MAXLEVEL) (hfuel : l.length + ops.length < fuel) :
    starved m malloc ops = true ∧ attemptAll fuel malloc random_level (some list) ops = .fault ∨
    starved m malloc ops = false ∧
      ∃ list', attemptAll fuel malloc random_level (some list) ops = .done (some list', answers m ops) := by
  induction ops generalizing list l m malloc random_level with
  | nil => exact Or.inr ⟨rfl, list, rfl⟩
  | cons op ops ih =>
    rw [List.length_cons] at hfuel
    unfold attemptAll starved
    cases hop : starves m (malloc 0) op with
    | true =>
      rw [attempt_starves horder hw hm (hlevels 0).1 (show l.length < fuel by omega) hop]
      exact Or.inl ⟨rfl, rfl⟩
    | false =>
      obtain ⟨list₁, l₁, hcall, hw₁, hm₁, hcompare₁, hlength₁⟩ :=
        attempt_granted horder hw hm (hlevels 0).1 (hlevels 0).2 (show l.length < fuel by omega) hop
      rw [hcall, Outcome.done_bind, Bool.false_or]
      dsimp only
      rcases ih (hcompare₁ ▸ horder) hw₁ hm₁ (fun n => hlevels (n + 1)) (by omega) with
        ⟨hstarved, hrest⟩ | ⟨hgranted, list', hrest⟩
      · exact Or.inl ⟨hstarved, by rw [hrest]; rfl⟩
      · exact Or.inr ⟨hgranted, list', by rw [hrest]; rfl⟩

/-- Whatever `malloc` answers in a run of calls on a new list, the run gives the answers of the finite map, unless it
comes to a new key and there is no memory for its node. Then it writes to NULL. -/
theorem skiplist_out_of_memory {compare : K → K → Int} (horder : TotalOrder compare) (ops : List (Op K V)) :
    ∃ list, skiplist_new true true compare = .done (some list) ∧ ∀ (malloc : Nat → Bool) (random_level : Nat → Nat),
      (∀ n, 1 ≤ random_level n ∧ random_level n ≤ SKIPLIST_MAXLEVEL) → ∀ fuel > ops.length,
        starved ∅ malloc ops = true ∧ attemptAll fuel malloc random_level (some list) ops = .fault ∨
        starved ∅ malloc ops = false ∧
          ∃ list', attemptAll fuel malloc random_level (some list) ops = .done (some list', answers ∅ ops) := by
  obtain ⟨list, hnew, hcompare, hw⟩ := new_wellFormed (V := V) compare
  refine ⟨list, hnew, fun malloc random_level hlevels fuel hfuel => ?_⟩
  exact attemptAll_spec (hcompare ▸ horder) hw represents_empty ops hlevels (by simpa using hfuel)

end Map

/-- The key 2 gets another value without memory, and the key 3 does not come in. -/
theorem skiplist_out_of_memory_sample : ∃ list : skiplist Nat Nat,
    skiplist_new true true compareNat = .done (some list) ∧
    ∀ (malloc : Nat → Bool) (random_level : Nat → Nat),
      (∀ n, 1 ≤ random_level n ∧ random_level n ≤ SKIPLIST_MAXLEVEL) → ∀ fuel > 3,
        starved ∅ malloc [.insert 2 7, .insert 2 8, .insert 3 9] = true ∧
          attemptAll fuel malloc random_level (some list) [.insert 2 7, .insert 2 8, .insert 3 9] = .fault ∨
        starved ∅ malloc [.insert 2 7, .insert 2 8, .insert 3 9] = false ∧
          ∃ list', attemptAll fuel malloc random_level (some list) [.insert 2 7, .insert 2 8, .insert 3 9] =
            .done (some list', answers ∅ [.insert 2 7, .insert 2 8, .insert 3 9]) :=
  skiplist_out_of_memory compareNat_order [.insert 2 7, .insert 2 8, .insert 3 9]

end Akio.Skiplist
