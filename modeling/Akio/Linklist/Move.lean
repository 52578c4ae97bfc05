import Akio.Linklist.Refine

/-!
# Moving a node

`linklist_move_node` takes the node out and writes the pointers of the node itself, but not those of its
new neighbours: no other node leads to it again, so one of the two traversals misses it.
-/

namespace Akio.Linklist

variable {V : Type} {list : linklist V} {l l₁ l₂ : List Nat} {p q src dst : Nat} {after : Int}

/-- The sequence of nodes that `linklist.h` promises: `src` right before or right after `dst`. -/
def moved (l : List Nat) (src dst : Nat) (after : Int) : List Nat :=
  let rest := l.erase src
  let i := rest.idxOf dst
  rest.insertIdx (if after ≠ 0 then i + 1 else i) src

/-- The call returns the list, with exactly the node `src` moved. -/
def Relocates (list : linklist V) (l : List Nat) (src dst : Nat) (after : Int) : Prop :=
  ∃ list', linklist_move_node (some list) (some src) (some dst) after = .done (some list', .list) ∧
    WellFormed list' (moved l src dst after)

theorem unlink_spec (h : WellFormed list (l₁ ++ p :: l₂)) :
    ∃ list', linklist_move_node.unlink list (some p) = .done list' ∧
      (∀ q, list'.nodes.Live q ↔ list.nodes.Live q) ∧ list'.len = list.len ∧
      Chain (nextOf list'.nodes) list'.head (l₁ ++ l₂) none ∧
      Chain (prevOf list'.nodes) list'.tail (l₁ ++ l₂).reverse none := by
  have hp : list.nodes.Live p := h.live p (by simp)
  obtain ⟨n, hn⟩ := Store.live_iff.mp hp
  have hprev : n.prev = l₁.getLast? := (prevOf_cell hn).symm.trans h.prev_eq
  have hnext : n.next = l₂.head? := (nextOf_cell hn).symm.trans h.next_eq
  have hnd : p ∉ l₁ ++ l₂ := h.nodup_rest.1
  rcases List.eq_nil_or_concat l₁ with rfl | ⟨l₁, y, rfl⟩ <;> rcases l₂ with _ | ⟨z, l₂⟩
  · have heq : linklist_move_node.unlink list (some p) = .done
        { list with head := none, tail := none } := by
      simp [linklist_move_node.unlink, hn, hprev, hnext, Store.read]
    refine ⟨_, heq, by simp, rfl, h.bypass ?_ ?_ ?_ ?_⟩
    all_goals simp +contextual
  · have hz : list.nodes.Live z := h.live z (by simp)
    have hzp : p ≠ z := by rintro rfl; simp at hnd
    have heq : linklist_move_node.unlink list (some p) = .done
        { list with head := some z, nodes := linkPrev list.nodes z none } := by
      simp [linklist_move_node.unlink, hn, hz, hprev, hnext, Store.read]
    refine ⟨_, heq, by simp, rfl, h.bypass ?_ ?_ ?_ ?_⟩
    all_goals simp +contextual [hz, update_link]
  · rw [List.concat_eq_append] at *
    have hy : list.nodes.Live y := h.live y (by simp)
    have hyp : p ≠ y := by rintro rfl; simp at hnd
    have heq : linklist_move_node.unlink list (some p) = .done
        { list with tail := some y, nodes := linkNext list.nodes y none } := by
      simp [linklist_move_node.unlink, hn, hy, hyp, hprev, hnext, Store.read, linkNext,
        Store.adjust_cell_of_ne]
    refine ⟨_, heq, by simp, rfl, h.bypass ?_ ?_ ?_ ?_⟩
    all_goals simp +contextual [hy, update_link]
  · rw [List.concat_eq_append] at *
    have hy : list.nodes.Live y := h.live y (by simp)
    have hyp : p ≠ y := by rintro rfl; simp at hnd
    have hz : list.nodes.Live z := h.live z (by simp)
    have heq : linklist_move_node.unlink list (some p) = .done
        { list with nodes := linkPrev (linkNext list.nodes y (some z)) z (some y) } := by
      simp [linklist_move_node.unlink, hn, hy, hyp, hz, hprev, hnext, Store.read, linkNext, linkPrev,
        Store.adjust_cell_of_ne]
    refine ⟨_, heq, by simp, rfl, h.bypass ?_ ?_ ?_ ?_⟩
    all_goals simp +contextual [hy, hz, update_link]

theorem relink_spec (hp : list.nodes.Live p) (hq : list.nodes.Live q) (hqp : q ≠ p) (hpl : p ∉ l)
    (after : Int) :
    ∃ list', linklist_move_node.relink list (some p) (some q) after = .done list' ∧
      list'.len = list.len ∧
      (after ≠ 0 → Chain (nextOf list.nodes) list.head l none →
        Chain (nextOf list'.nodes) list'.head l none) ∧
      (after = 0 → Chain (prevOf list.nodes) list.tail l.reverse none →
        Chain (prevOf list'.nodes) list'.tail l.reverse none) := by
  obtain ⟨n, hn⟩ := Store.live_iff.mp hq
  by_cases ha : after = 0
  · have heq : linklist_move_node.relink list (some p) (some q) after = .done
        { list with
          head := if list.head = some q then some p else list.head
          nodes := linkPrev (linkNext list.nodes p (some q)) p n.prev } := by
      simp [linklist_move_node.relink, ha, hp, hn, hqp, Store.read, linkNext, linkPrev,
        Store.adjust_cell_of_ne]
      split <;> rfl
    refine ⟨_, heq, rfl, fun hne => absurd ha hne, fun _ hc => ?_⟩
    simpa [hp] using hc.update (List.mem_reverse.not.mpr hpl) n.prev
  · have heq : linklist_move_node.relink list (some p) (some q) after = .done
        { list with
          tail := if list.tail = some q then some p else list.tail
          nodes := linkNext (linkPrev list.nodes p (some q)) p n.next } := by
      simp [linklist_move_node.relink, ha, hp, hn, hqp, Store.read, linkNext, linkPrev,
        Store.adjust_cell_of_ne]
      split <;> rfl
    refine ⟨_, heq, rfl, fun _ hc => ?_, fun h0 => absurd h0 ha⟩
    simpa [hp] using hc.update hpl n.next

/-- The call returns a list that is not well formed: one of its two traversals has lost `src`. -/
theorem linklist_move_node_spec (h : WellFormed list l) (hsrc : src ∈ l) (hdst : dst ∈ l)
    (hne : src ≠ dst) (after : Int) :
    ∃ list', linklist_move_node (some list) (some src) (some dst) after = .done (some list', .list) ∧
      ∀ l', ¬ WellFormed list' l' := by
  obtain ⟨l₁, l₂, rfl⟩ := List.append_of_mem hsrc
  obtain ⟨list₁, hunlink, hlive, hlen₁, hforward, hbackward⟩ := unlink_spec h
  obtain ⟨list', hrelink, hlen, hnext, hprev⟩ := relink_spec ((hlive src).mpr (h.live src hsrc))
    ((hlive dst).mpr (h.live dst hdst)) hne.symm h.nodup_rest.1 after
  refine ⟨list', ?_, ?_⟩
  · unfold linklist_move_node
    simp [hne, hunlink, hrelink]
  · intro l' h'
    -- The traversal that was kept visits the other nodes only, one less than `len`.
    have hlost : l'.length = (l₁ ++ l₂).length := by
      by_cases ha : after = 0
      · have hc := hprev ha hbackward
        rw [← List.length_reverse, h'.backward.unique hc, List.length_reverse]
      · exact congrArg List.length (h'.forward.unique (hnext ha hforward))
    have hlen' := h'.len
    rw [hlen, hlen₁, h.len] at hlen'
    simp at hlen' hlost
    omega

/-! ## The promise of the header -/

/-- Two nodes, at the addresses 0 and 1. -/
def listPair : linklist Nat :=
  { head := some 0, tail := some 1, len := 2, free_func := false, freed := []
    nodes := linkNext (Store.alloc (Store.alloc Store.empty ⟨none, none, 7⟩).2 ⟨some 0, none, 8⟩).2 0
      (some 1) }

theorem listPair_wellFormed : WellFormed listPair [0, 1] := by
  refine ⟨?_, by simp, rfl, ⟨rfl, rfl, rfl⟩, ⟨rfl, rfl, rfl⟩⟩
  simp [listPair, Store.empty]

/-- On no list, nodes and `after` does the call relocate the node. -/
theorem linklist_move_node_never (h : WellFormed list l) (hsrc : src ∈ l) (hdst : dst ∈ l)
    (hne : src ≠ dst) (after : Int) : ¬ Relocates list l src dst after := by
  rintro ⟨list', heq, hshape⟩
  obtain ⟨list'', heq', hbroken⟩ := linklist_move_node_spec h hsrc hdst hne after
  rw [heq] at heq'
  obtain rfl : list' = list'' := by simpa using heq'
  exact hbroken _ hshape

theorem linklist_move_node_never_sample :
    WellFormed listPair [0, 1] ∧ ¬ Relocates listPair [0, 1] 0 1 1 :=
  ⟨listPair_wellFormed, linklist_move_node_never listPair_wellFormed (by simp) (by simp) (by simp) 1⟩

/-- Node 0 moved behind node 1: the traversal from `head` ends after node 1. -/
theorem linklist_move_node_loses : WellFormed listPair [0, 1] ∧ moved [0, 1] 0 1 1 = [1, 0] ∧
    ∃ list', linklist_move_node (some listPair) (some 0) (some 1) 1 = .done (some list', .list) ∧
      list'.head = some 1 ∧ nextOf list'.nodes 1 = none ∧ ¬ WellFormed list' [1, 0] := by
  refine ⟨listPair_wellFormed, rfl, _, rfl, rfl, rfl, ?_⟩
  rintro ⟨-, -, -, ⟨-, hnext, -⟩, -⟩
  cases hnext

end Akio.Linklist
