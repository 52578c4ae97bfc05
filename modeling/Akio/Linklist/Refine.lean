import Akio.Linklist.Ops

/-!
# The list as a sequence

`edit` is what each operation means for the sequence of values. Along every run of operations the
list stays well formed and holds the edited sequence.
-/

namespace Akio.Linklist

variable {V : Type} {list list' : linklist V} {l l₁ l₂ : List Nat} {p : Nat} {value : V}

/-- One call, with the answer of its `malloc`. Nodes are given by address. -/
inductive Op (V : Type) where
  | add_head (malloc : Bool) (value : V)
  | add_tail (malloc : Bool) (value : V)
  | insert_node (malloc : Bool) (node : Nat) (value : V) (after : Int)
  | delete_node (node : Nat)

/-- The nodes met from `head` by following `next` for `len` nodes. -/
def members (list : linklist V) : List Nat := walk (nextOf list.nodes) list.len list.head

/-- The values of the nodes of `l`. -/
def valuesOf (list : linklist V) (l : List Nat) : List V := l.filterMap (valueOf list.nodes)

def exec (list : linklist V) : Op V → Outcome (Option (linklist V) × Answer)
  | .add_head malloc value => linklist_add_head malloc (some list) value
  | .add_tail malloc value => linklist_add_tail malloc (some list) value
  | .insert_node malloc node value after =>
    linklist_insert_node malloc (some list) (some node) value after
  | .delete_node node => do
    let list ← linklist_delete_node list (some node)
    return (some list, .list)

/-- The node an operation is given is a member of the list. -/
def Op.Legal (list : linklist V) : Op V → Prop
  | .add_head .. | .add_tail .. => True
  | .insert_node _ node .. | .delete_node node => node ∈ members list

/-- The allocation of the operation fails. -/
def Op.fails : Op V → Bool
  | .add_head malloc _ | .add_tail malloc _ | .insert_node malloc .. => !malloc
  | .delete_node _ => false

/-- The edit of the sequence of values. A node stands for its position in the list. -/
def edit (list : linklist V) (vals : List V) : Op V → List V
  | .add_head malloc value => if malloc then value :: vals else vals
  | .add_tail malloc value => if malloc then vals ++ [value] else vals
  | .insert_node malloc node value after =>
    let i := (members list).idxOf node
    if malloc then vals.insertIdx (if after ≠ 0 then i + 1 else i) value else vals
  | .delete_node node => vals.eraseIdx ((members list).idxOf node)

/-- One operation that returns, and the same edit of the sequence. -/
def Step (s : linklist V × List V) (op : Op V) (t : linklist V × List V) : Prop :=
  op.Legal s.1 ∧ (∃ answer, exec s.1 op = .done (some t.1, answer)) ∧ t.2 = edit s.1 s.2 op

instance (list : linklist V) (op : Op V) : Decidable (op.Legal list) := by
  cases op <;> unfold Op.Legal <;> infer_instance

/-- `Step`, computed. -/
def step? (s : linklist V × List V) (op : Op V) : Option (linklist V × List V) :=
  if op.Legal s.1 then
    match exec s.1 op with
    | .done (some list, _) => some (list, edit s.1 s.2 op)
    | _ => none
  else none

theorem step_of_step? (s : linklist V × List V) (op : Op V) (t : linklist V × List V)
    (h : step? s op = some t) : Step s op t := by
  unfold step? at h
  split at h
  · rename_i hlegal
    split at h
    · rename_i list answer heq
      obtain rfl := Option.some.inj h
      exact ⟨hlegal, ⟨answer, heq⟩, rfl⟩
    · cases h
  · cases h

/-! ## The invariant of a run -/

/-- The list is well formed, owns exactly its nodes, and holds `vals`. -/
structure Holds (func : Bool) (list : linklist V) (vals : List V) (l : List Nat) : Prop where
  shape : WellFormed list l
  owned : ∀ q, list.nodes.Live q ↔ q ∈ l
  values : valuesOf list l = vals
  free_func : list.free_func = func

theorem valueOf_isSome (nodes : Store (list_node V)) (q : Nat) :
    (valueOf nodes q).isSome ↔ nodes.Live q := by
  unfold valueOf Store.field Store.Live
  cases nodes.cell q <;> simp

theorem WellFormed.members_eq (h : WellFormed list l) : members list = l := by
  rw [members, h.len]
  exact h.forward.walk_of_le (Nat.le_refl _)

theorem valuesOf_length (h : ∀ p ∈ l, list.nodes.Live p) : (valuesOf list l).length = l.length := by
  induction l with
  | nil => rfl
  | cons p l ih =>
    obtain ⟨v, hv⟩ := Option.isSome_iff_exists.mp ((valueOf_isSome _ _).mpr (h p List.mem_cons_self))
    have := ih (fun q hq => h q (List.mem_cons_of_mem p hq))
    simp only [valuesOf] at this ⊢
    simp [hv, this]

theorem valuesOf_congr (h : ∀ p ∈ l, valueOf list'.nodes p = valueOf list.nodes p) :
    valuesOf list' l = valuesOf list l := List.filterMap_congr h

theorem valuesOf_append :
    valuesOf list (l₁ ++ l₂) = valuesOf list l₁ ++ valuesOf list l₂ := List.filterMap_append

theorem Added.live (ha : Added list list' value) (q : Nat) :
    list'.nodes.Live q ↔ q = list.nodes.next ∨ list.nodes.Live q := by
  rw [← valueOf_isSome, ← valueOf_isSome, ha.values]
  by_cases hq : q = list.nodes.next <;> simp [hq]

theorem Added.valuesOf_eq (ha : Added list list' value) (h : ∀ p ∈ l, list.nodes.Live p) :
    valuesOf list' l = valuesOf list l := by
  apply valuesOf_congr
  intro q hq
  rw [ha.values, Function.update_of_ne (h q hq).ne_next]

theorem insertIdx_append (xs ys : List V) (a : V) :
    (xs ++ ys).insertIdx xs.length a = xs ++ a :: ys := by
  induction xs with
  | nil => rfl
  | cons x xs ih => simpa using ih

theorem Added.holds {func : Bool} {vals : List V} (ha : Added list list' value)
    (h : Holds func list vals (l₁ ++ l₂)) (hshape : WellFormed list' (l₁ ++ list.nodes.next :: l₂)) :
    Holds func list' (vals.insertIdx l₁.length value) (l₁ ++ list.nodes.next :: l₂) := by
  have hlive : ∀ p ∈ l₁ ++ l₂, list.nodes.Live p := h.shape.live
  have h₁ : ∀ p ∈ l₁, list.nodes.Live p := fun p hp => hlive p (List.mem_append_left l₂ hp)
  have h₂ : ∀ p ∈ l₂, list.nodes.Live p := fun p hp => hlive p (List.mem_append_right l₁ hp)
  refine ⟨hshape, ?_, ?_, by rw [ha.free_func, h.free_func]⟩
  · intro q
    rw [ha.live, h.owned]
    simp only [List.mem_append, List.mem_cons]
    tauto
  · have hnew : valuesOf list' (list.nodes.next :: l₂) = value :: valuesOf list l₂ := by
      rw [← ha.valuesOf_eq h₂]
      simp [valuesOf, ha.values]
    rw [valuesOf_append, hnew, ha.valuesOf_eq h₁, ← h.values, valuesOf_append]
    rw [← valuesOf_length h₁, insertIdx_append]

theorem Removed.holds {func : Bool} {vals : List V} (hr : Removed list list' p)
    (h : Holds func list vals (l₁ ++ p :: l₂)) (hshape : WellFormed list' (l₁ ++ l₂)) :
    Holds func list' (vals.eraseIdx l₁.length) (l₁ ++ l₂) := by
  have hlive := h.shape.live
  have h₁ : ∀ q ∈ l₁, list.nodes.Live q := fun q hq => hlive q (List.mem_append_left _ hq)
  have hnd := h.shape.nodup_rest
  refine ⟨hshape, ?_, ?_, by rw [hr.free_func, h.free_func]⟩
  · intro q
    have howned := h.owned q
    rw [← valueOf_isSome] at howned
    rw [← valueOf_isSome, hr.values]
    by_cases hq : q = p
    · simpa [hq] using hnd.1
    · rw [Function.update_of_ne hq, howned]
      simp [hq]
  · have hkeep : valuesOf list' (l₁ ++ l₂) = valuesOf list (l₁ ++ l₂) := by
      apply valuesOf_congr
      rintro q hq
      rw [hr.values, Function.update_of_ne]
      rintro rfl
      exact hnd.1 hq
    obtain ⟨v, hv⟩ := Option.isSome_iff_exists.mp ((valueOf_isSome _ _).mpr (hlive p (by simp)))
    rw [hkeep, ← h.values, valuesOf_append, valuesOf_append, ← valuesOf_length h₁,
      List.eraseIdx_append_of_length_le (Nat.le_refl _)]
    simp [valuesOf, hv]

/-! ## One operation -/

theorem exec_spec {func : Bool} {vals : List V} (h : Holds func list vals l) {op : Op V}
    (hlegal : op.Legal list) :
    ∃ list' answer, exec list op = .done (some list', answer) ∧ (answer = .null ↔ op.fails) ∧
      (answer = .null → list' = list) ∧ ∃ l', Holds func list' (edit list vals op) l' := by
  have hmem : members list = l := h.shape.members_eq
  have hsplit : ∀ p ∈ members list, ∃ l₁ l₂, l = l₁ ++ p :: l₂ ∧ (members list).idxOf p = l₁.length := by
    intro p hp
    rw [hmem] at hp ⊢
    obtain ⟨l₁, l₂, rfl⟩ := List.append_of_mem hp
    have hp₁ : p ∉ l₁ := fun hp => h.shape.nodup_rest.1 (List.mem_append_left l₂ hp)
    exact ⟨l₁, l₂, rfl, by simp [List.idxOf_append, hp₁]⟩
  cases op with
  | add_head malloc value =>
    cases malloc with
    | false => exact ⟨list, .null, rfl, by simp [Op.fails], fun _ => rfl, l, h⟩
    | true =>
      obtain ⟨list', heq, hshape, hadd⟩ := linklist_add_head_spec h.shape value
      have h' : Holds func list vals ([] ++ l) := h
      refine ⟨list', .list, heq, by simp [Op.fails], by simp, list.nodes.next :: l, ?_⟩
      simpa [edit] using hadd.holds h' hshape
  | add_tail malloc value =>
    cases malloc with
    | false => exact ⟨list, .null, rfl, by simp [Op.fails], fun _ => rfl, l, h⟩
    | true =>
      obtain ⟨list', heq, hshape, hadd⟩ := linklist_add_tail_spec h.shape value
      have h' : Holds func list vals (l ++ []) := by rwa [List.append_nil]
      refine ⟨list', .list, heq, by simp [Op.fails], by simp, l ++ [list.nodes.next], ?_⟩
      have hlen : vals.length = l.length := by rw [← h.values, valuesOf_length h.shape.live]
      have := hadd.holds h' hshape
      rwa [← hlen, List.insertIdx_length_self] at this
  | insert_node malloc node value after =>
    cases malloc with
    | false =>
      refine ⟨list, .null, ?_, by simp [Op.fails], fun _ => rfl, l, h⟩
      simp [exec, linklist_insert_node]
    | true =>
      obtain ⟨l₁, l₂, rfl, hidx⟩ := hsplit node hlegal
      by_cases hafter : after = 0
      · subst hafter
        obtain ⟨list', heq, hshape, hadd⟩ := linklist_insert_node_before h.shape value
        refine ⟨list', .list, heq, by simp [Op.fails], by simp, l₁ ++ list.nodes.next :: node :: l₂, ?_⟩
        simpa [edit, hidx] using hadd.holds h hshape
      · obtain ⟨list', heq, hshape, hadd⟩ := linklist_insert_node_after h.shape value hafter
        have h' : Holds func list vals ((l₁ ++ [node]) ++ l₂) := by simpa using h
        have hshape' : WellFormed list' ((l₁ ++ [node]) ++ list.nodes.next :: l₂) := by simpa using hshape
        refine ⟨list', .list, heq, by simp [Op.fails], by simp,
          (l₁ ++ [node]) ++ list.nodes.next :: l₂, ?_⟩
        simpa [edit, hidx, hafter] using hadd.holds h' hshape'
  | delete_node node =>
    obtain ⟨l₁, l₂, rfl, hidx⟩ := hsplit node hlegal
    obtain ⟨list', heq, hshape, hrem⟩ := linklist_delete_node_spec h.shape
    refine ⟨list', .list, by simp [exec, heq], by simp [Op.fails], by simp, l₁ ++ l₂, ?_⟩
    simpa [edit, hidx] using hrem.holds h hshape

/-! ## Runs -/

theorem new_holds {func : Bool} {list₀ : linklist V} (hnew : linklist_new true func = some list₀) :
    Holds func list₀ [] [] := by
  obtain rfl := Option.some.inj hnew
  refine ⟨⟨by simp, List.nodup_nil, rfl, ?_, ?_⟩, by simp, rfl, rfl⟩ <;> simp

theorem run_holds {func : Bool} {list₀ : linklist V} (hnew : linklist_new true func = some list₀)
    {ops : List (Op V)} {s : linklist V × List V} (hrun : Run Step (list₀, []) ops s) :
    ∃ l, Holds func s.1 s.2 l := by
  refine hrun.invariant (P := fun s => ∃ l, Holds func s.1 s.2 l) ?_ ⟨[], new_holds hnew⟩
  rintro ⟨list, vals⟩ op ⟨list', vals'⟩ ⟨l, h⟩ ⟨hlegal, ⟨answer, heq⟩, rfl⟩
  obtain ⟨list'', answer', heq', -, -, l', h'⟩ := exec_spec h hlegal
  simp only at heq heq' h'
  rw [heq] at heq'
  obtain ⟨rfl, rfl⟩ : list' = list'' ∧ answer = answer' := by simpa using heq'
  exact ⟨l', h'⟩

/-- Along every run from `linklist_new` the list is well formed and holds the edited sequence, each
further call returns, and a final `linklist_free` hands the values that are left to `free_func`, each
once, and frees every node. -/
theorem linklist_refines_sequence {func : Bool} {list₀ : linklist V}
    (hnew : linklist_new true func = some list₀) {ops : List (Op V)} {list : linklist V}
    {vals : List V} (hrun : Run Step (list₀, []) ops (list, vals)) :
    (∃ l, WellFormed list l ∧ list.tail = l.getLast? ∧ valuesOf list l = vals) ∧
    (∀ op : Op V, op.Legal list → ∃ list' answer, exec list op = .done (some list', answer) ∧
      (answer = .null ↔ op.fails) ∧ (answer = .null → list' = list)) ∧
    ∃ list', linklist_free (some list) = .done (some list') ∧
      list'.freed = list.freed ++ (if func then vals else []) ∧ ∀ q, ¬ list'.nodes.Live q := by
  obtain ⟨l, h⟩ : ∃ l, Holds func list vals l := run_holds hnew hrun
  refine ⟨⟨l, h.shape, h.shape.tail_eq, h.values⟩, ?_, ?_⟩
  · intro op hlegal
    obtain ⟨list', answer, heq, hnull, hsame, -⟩ := exec_spec h hlegal
    exact ⟨list', answer, heq, hnull, hsame⟩
  · obtain ⟨list', heq, hfreed, hlive⟩ :=
      linklist_free_loop_spec l list list.head h.shape.live h.shape.nodup h.shape.forward
    refine ⟨list', ?_, ?_, ?_⟩
    · simp [linklist_free, h.shape.len, heq]
    · rw [hfreed, ← h.free_func, ← h.values]
      rfl
    · intro q
      rw [hlive, h.owned]
      tauto

/-- A run with an insertion before a node, a failed allocation and a removal. -/
theorem linklist_refines_sequence_sample : ∃ list : linklist Nat,
    (∃ l, WellFormed list l ∧ list.tail = l.getLast? ∧ valuesOf list l = [5]) ∧
    ∃ list', linklist_free (some list) = .done (some list') ∧ list'.freed = [7, 5] := by
  let list₀ : linklist Nat :=
    { head := none, tail := none, len := 0, free_func := true, nodes := .empty, freed := [] }
  obtain ⟨list, hrun, hfreed⟩ : ∃ list, Run Step (list₀, [])
      [.add_tail true 7, .insert_node true 0 5 0, .add_head false 9, .delete_node 0] (list, [5]) ∧
      list.freed = [7] := ⟨_, Run.of_foldlM step_of_step? rfl, rfl⟩
  obtain ⟨hshape, -, list', hfree, hlist', -⟩ := linklist_refines_sequence rfl hrun
  exact ⟨list, hshape, list', hfree, by simp [hlist', hfreed]⟩

end Akio.Linklist
