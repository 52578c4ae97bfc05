import Akio.Linklist.Shape

/-! # What each operation does to a well-formed list -/

namespace Akio.Linklist

variable {V : Type} {list list' : linklist V} {l l₁ l₂ : List Nat} {p q : Nat} {value : V}

/-- What an insertion does besides the pointers: the new node holds `value`, and nothing is freed. -/
structure Added (list list' : linklist V) (value : V) : Prop where
  values : valueOf list'.nodes = Function.update (valueOf list.nodes) list.nodes.next (some value)
  free_func : list'.free_func = list.free_func
  freed : list'.freed = list.freed

/-- The nodes of `list`, with the new one that does not point anywhere yet. -/
abbrev grown (list : linklist V) (value : V) : Store (list_node V) :=
  (list.nodes.alloc { prev := none, next := none, value }).2

theorem update_pair {f : Nat → Ptr} {n : Nat} (hpn : p ≠ n) (b c : Ptr) (q : Nat) :
    Function.update (Function.update f n b) p c q =
      if q = n then b else if p = q then c else f q := by
  by_cases hq : q = n
  · simp [hq, hpn.symm]
  · simp [hq, Function.update_apply, eq_comm]

/-! ## linklist_add_head and linklist_add_tail -/

theorem linklist_add_head_spec (h : WellFormed list l) (value : V) :
    ∃ list', linklist_add_head true (some list) value = .done (some list', .list) ∧
      WellFormed list' (list.nodes.next :: l) ∧ Added list list' value := by
  have hfresh : ¬ list.nodes.Live list.nodes.next := Store.next_not_live
  have h₀ : WellFormed list ([] ++ l) := h
  rcases l with _ | ⟨y, l⟩
  · have hlen : list.len = 0 := h.len
    have heq : linklist_add_head true (some list) value = .done (some
        { list with
          head := some list.nodes.next, tail := some list.nodes.next, len := list.len + 1
          nodes := linkPrev (linkNext (grown list value) list.nodes.next none) list.nodes.next none },
        .list) := by
      simp [linklist_add_head, newNode, hlen]
    refine ⟨_, heq, h₀.splice hfresh ?_ ?_ ?_ ?_ ?_ ?_, ?_, ?_, ?_⟩
    all_goals simp [Function.update_apply]
  · have hlen : list.len ≠ 0 := by simp [h.len]
    have hhead : list.head = some y := h.head_eq
    have hy : list.nodes.Live y := h.live y List.mem_cons_self
    have heq : linklist_add_head true (some list) value = .done (some
        { list with
          head := some list.nodes.next, len := list.len + 1
          nodes := linkPrev (linkNext (linkPrev (grown list value) list.nodes.next none)
            list.nodes.next (some y)) y (some list.nodes.next) }, .list) := by
      simp [linklist_add_head, newNode, hlen, hhead, hy]
    refine ⟨_, heq, h₀.splice hfresh ?_ ?_ ?_ ?_ ?_ ?_, ?_, ?_, ?_⟩
    case refine_5 =>
      intro q
      by_cases hq : q = list.nodes.next <;> simp [hq]
    case refine_6 => simp [hy, update_pair hy.ne_next]
    all_goals simp

theorem linklist_add_tail_spec (h : WellFormed list l) (value : V) :
    ∃ list', linklist_add_tail true (some list) value = .done (some list', .list) ∧
      WellFormed list' (l ++ [list.nodes.next]) ∧ Added list list' value := by
  have hfresh : ¬ list.nodes.Live list.nodes.next := Store.next_not_live
  have h₀ : WellFormed list (l ++ []) := by rwa [List.append_nil]
  rcases List.eq_nil_or_concat l with rfl | ⟨l, y, rfl⟩
  · have hlen : list.len = 0 := h.len
    have heq : linklist_add_tail true (some list) value = .done (some
        { list with
          head := some list.nodes.next, tail := some list.nodes.next, len := list.len + 1
          nodes := linkPrev (linkNext (grown list value) list.nodes.next none) list.nodes.next none },
        .list) := by
      simp [linklist_add_tail, newNode, hlen]
    refine ⟨_, heq, h₀.splice hfresh ?_ ?_ ?_ ?_ ?_ ?_, ?_, ?_, ?_⟩
    all_goals simp [Function.update_apply]
  · rw [List.concat_eq_append] at *
    have hlen : list.len ≠ 0 := by simp [h.len]
    have htail : list.tail = some y := by simp [h.tail_eq]
    have hy : list.nodes.Live y := h.live y (by simp)
    have heq : linklist_add_tail true (some list) value = .done (some
        { list with
          tail := some list.nodes.next, len := list.len + 1
          nodes := linkNext (linkNext (linkPrev (grown list value) list.nodes.next (some y))
            list.nodes.next none) y (some list.nodes.next) }, .list) := by
      simp [linklist_add_tail, newNode, hlen, htail, hy]
    refine ⟨_, heq, h₀.splice hfresh ?_ ?_ ?_ ?_ ?_ ?_, ?_, ?_, ?_⟩
    case refine_5 => simp [hy, update_pair hy.ne_next]
    case refine_6 =>
      intro q
      by_cases hq : q = list.nodes.next <;> simp [hq]
    all_goals simp

/-! ## linklist_insert_node -/

theorem linklist_insert_node_after (h : WellFormed list (l₁ ++ p :: l₂)) (value : V) {after : Int}
    (ha : after ≠ 0) :
    ∃ list', linklist_insert_node true (some list) (some p) value after = .done (some list', .list) ∧
      WellFormed list' (l₁ ++ p :: list.nodes.next :: l₂) ∧ Added list list' value := by
  have hfresh : ¬ list.nodes.Live list.nodes.next := Store.next_not_live
  have hp : list.nodes.Live p := h.live p (by simp)
  have hpn : p ≠ list.nodes.next := hp.ne_next
  obtain ⟨n, hn⟩ := Store.live_iff.mp hp
  have hnext : n.next = l₂.head? := (nextOf_cell hn).symm.trans h.next_eq
  have htail := h.tail_iff
  have h' : WellFormed list ((l₁ ++ [p]) ++ l₂) := by simpa using h
  rw [show l₁ ++ p :: list.nodes.next :: l₂ = (l₁ ++ [p]) ++ list.nodes.next :: l₂ by simp]
  rcases l₂ with _ | ⟨y, l₂⟩
  · have heq : linklist_insert_node true (some list) (some p) value after = .done (some
        { list with
          tail := some list.nodes.next, len := list.len + 1
          nodes := linkNext (linkNext (linkPrev (grown list value) list.nodes.next (some p))
            list.nodes.next none) p (some list.nodes.next) }, .list) := by
      simp [linklist_insert_node, newNode, ha, hp, hn, hnext, htail, hpn, hpn.symm, Store.read, linkNext,
        linkPrev, Store.adjust_cell_of_ne, Store.adjust_cell_self, Store.alloc_cell_self,
        Store.alloc_cell_of_ne]
    refine ⟨_, heq, h'.splice hfresh ?_ ?_ ?_ ?_ ?_ ?_, ?_, ?_, ?_⟩
    case refine_5 => simp [hp, update_pair hpn]
    case refine_6 =>
      intro q
      by_cases hq : q = list.nodes.next <;> simp [hq]
    all_goals simp
  · have hy : list.nodes.Live y := h.live y (by simp)
    have heq : linklist_insert_node true (some list) (some p) value after = .done (some
        { list with
          len := list.len + 1
          nodes := linkPrev (linkNext (linkNext (linkPrev (grown list value) list.nodes.next (some p))
            list.nodes.next (some y)) p (some list.nodes.next)) y (some list.nodes.next) }, .list) := by
      simp [linklist_insert_node, newNode, ha, hp, hy, hn, hnext, htail, hpn, hpn.symm, Store.read,
        linkNext, linkPrev, Store.adjust_cell_of_ne, Store.adjust_cell_self, Store.alloc_cell_self,
        Store.alloc_cell_of_ne]
    refine ⟨_, heq, h'.splice hfresh ?_ ?_ ?_ ?_ ?_ ?_, ?_, ?_, ?_⟩
    case refine_5 => simp [hp, update_pair hpn]
    case refine_6 => simp [hy, update_pair hy.ne_next]
    all_goals simp

theorem linklist_insert_node_before (h : WellFormed list (l₁ ++ p :: l₂)) (value : V) :
    ∃ list', linklist_insert_node true (some list) (some p) value 0 = .done (some list', .list) ∧
      WellFormed list' (l₁ ++ list.nodes.next :: p :: l₂) ∧ Added list list' value := by
  have hfresh : ¬ list.nodes.Live list.nodes.next := Store.next_not_live
  have hp : list.nodes.Live p := h.live p (by simp)
  have hpn : p ≠ list.nodes.next := hp.ne_next
  obtain ⟨n, hn⟩ := Store.live_iff.mp hp
  have hprev : n.prev = l₁.getLast? := (prevOf_cell hn).symm.trans h.prev_eq
  have hhead := h.head_iff
  rcases List.eq_nil_or_concat l₁ with rfl | ⟨l₁, y, rfl⟩
  · have heq : linklist_insert_node true (some list) (some p) value 0 = .done (some
        { list with
          head := some list.nodes.next, len := list.len + 1
          nodes := linkPrev (linkPrev (linkNext (grown list value) list.nodes.next (some p))
            list.nodes.next none) p (some list.nodes.next) }, .list) := by
      simp [linklist_insert_node, newNode, hp, hn, hprev, hhead, hpn, Store.read, linkNext,
        linkPrev, Store.adjust_cell_of_ne, Store.adjust_cell_self, Store.alloc_cell_self,
        Store.alloc_cell_of_ne]
    refine ⟨_, heq, h.splice hfresh ?_ ?_ ?_ ?_ ?_ ?_, ?_, ?_, ?_⟩
    case refine_5 =>
      intro q
      by_cases hq : q = list.nodes.next <;> simp [hq]
    case refine_6 => simp [hp, update_pair hpn]
    all_goals simp
  · rw [List.concat_eq_append] at *
    have hy : list.nodes.Live y := h.live y (by simp)
    have hyn : y ≠ list.nodes.next := hy.ne_next
    have hyp : y ≠ p := by
      rintro rfl
      exact (List.nodup_append.mp h.nodup).2.2 y (by simp) y (by simp) rfl
    have heq : linklist_insert_node true (some list) (some p) value 0 = .done (some
        { list with
          len := list.len + 1
          nodes := linkPrev (linkNext (linkPrev (linkNext (grown list value) list.nodes.next (some p))
            list.nodes.next (some y)) y (some list.nodes.next)) p (some list.nodes.next) }, .list) := by
      simp [linklist_insert_node, newNode, hp, hy, hn, hprev, hhead, hpn, hyn, hyn.symm,
        Store.read, linkNext, linkPrev, Store.adjust_cell_of_ne, Store.adjust_cell_self,
        Store.alloc_cell_self, Store.alloc_cell_of_ne]
    refine ⟨_, heq, h.splice hfresh ?_ ?_ ?_ ?_ ?_ ?_, ?_, ?_, ?_⟩
    case refine_5 => simp [hy, update_pair hyn]
    case refine_6 => simp [hp, update_pair hpn]
    all_goals simp

/-! ## linklist_delete_node and linklist_free -/

/-- What a removal does besides the pointers: the value of the node `p` goes to `free_func`. -/
structure Removed (list list' : linklist V) (p : Nat) : Prop where
  values : valueOf list'.nodes = Function.update (valueOf list.nodes) p none
  free_func : list'.free_func = list.free_func
  freed : list'.freed = list.freed ++ if list.free_func then (valueOf list.nodes p).toList else []

@[simp] theorem callFree_nodes : (callFree list value).nodes = list.nodes := by
  unfold callFree; split <;> rfl
@[simp] theorem callFree_head : (callFree list value).head = list.head := by
  unfold callFree; split <;> rfl
@[simp] theorem callFree_tail : (callFree list value).tail = list.tail := by
  unfold callFree; split <;> rfl
@[simp] theorem callFree_len : (callFree list value).len = list.len := by
  unfold callFree; split <;> rfl
@[simp] theorem callFree_free_func : (callFree list value).free_func = list.free_func := by
  unfold callFree; split <;> rfl
@[simp] theorem callFree_freed :
    (callFree list value).freed = list.freed ++ if list.free_func then [value] else [] := by
  unfold callFree; split <;> simp [*]

theorem update_link (f : Nat → Ptr) (y : Nat) (x : Ptr) (q : Nat) :
    Function.update f y x q = if y = q then x else f q := by
  simp [Function.update_apply, eq_comm]

theorem linklist_delete_node_spec (h : WellFormed list (l₁ ++ p :: l₂)) :
    ∃ list', linklist_delete_node list (some p) = .done list' ∧
      WellFormed list' (l₁ ++ l₂) ∧ Removed list list' p := by
  have hp : list.nodes.Live p := h.live p (by simp)
  obtain ⟨n, hn⟩ := Store.live_iff.mp hp
  have hprev : n.prev = l₁.getLast? := (prevOf_cell hn).symm.trans h.prev_eq
  have hnext : n.next = l₂.head? := (nextOf_cell hn).symm.trans h.next_eq
  have hvalue : valueOf list.nodes p = some n.value := valueOf_cell hn
  have hnd : p ∉ l₁ ++ l₂ := h.nodup_rest.1
  rcases List.eq_nil_or_concat l₁ with rfl | ⟨l₁, y, rfl⟩ <;> rcases l₂ with _ | ⟨z, l₂⟩
  · have heq : linklist_delete_node list (some p) = .done
        { callFree list n.value with
          head := none, tail := none, len := list.len - 1, nodes := list.nodes.drop p } := by
      simp [linklist_delete_node, hn, hp, hprev, hnext, Store.read]
    refine ⟨_, heq, h.unlink ?_ ?_ ?_ ?_ ?_ ?_, ?_, ?_, ?_⟩
    all_goals simp +contextual [hvalue]
  · have hz : list.nodes.Live z := h.live z (by simp)
    have hzp : p ≠ z := by rintro rfl; simp at hnd
    have heq : linklist_delete_node list (some p) = .done
        { callFree list n.value with
          head := some z, len := list.len - 1, nodes := (linkPrev list.nodes z none).drop p } := by
      simp [linklist_delete_node, hn, hp, hz, hzp, hprev, hnext, Store.read, linkPrev,
        Store.adjust_cell_of_ne]
    refine ⟨_, heq, h.unlink ?_ ?_ ?_ ?_ ?_ ?_, ?_, ?_, ?_⟩
    all_goals simp +contextual [hvalue, hz, update_link]
  · rw [List.concat_eq_append] at *
    have hy : list.nodes.Live y := h.live y (by simp)
    have hyp : p ≠ y := by rintro rfl; simp at hnd
    have heq : linklist_delete_node list (some p) = .done
        { callFree list n.value with
          tail := some y, len := list.len - 1, nodes := (linkNext list.nodes y none).drop p } := by
      simp [linklist_delete_node, hn, hp, hy, hyp, hprev, hnext, Store.read, linkNext,
        Store.adjust_cell_of_ne]
    refine ⟨_, heq, h.unlink ?_ ?_ ?_ ?_ ?_ ?_, ?_, ?_, ?_⟩
    all_goals simp +contextual [hvalue, hy, update_link]
  · rw [List.concat_eq_append] at *
    have hy : list.nodes.Live y := h.live y (by simp)
    have hyp : p ≠ y := by rintro rfl; simp at hnd
    have hz : list.nodes.Live z := h.live z (by simp)
    have hzp : p ≠ z := by rintro rfl; simp at hnd
    have heq : linklist_delete_node list (some p) = .done
        { callFree list n.value with
          len := list.len - 1
          nodes := (linkPrev (linkNext list.nodes y (some z)) z (some y)).drop p } := by
      simp [linklist_delete_node, hn, hp, hy, hyp, hz, hzp, hprev, hnext, Store.read, linkNext, linkPrev,
        Store.adjust_cell_of_ne]
    refine ⟨_, heq, h.unlink ?_ ?_ ?_ ?_ ?_ ?_, ?_, ?_, ?_⟩
    all_goals simp +contextual [hvalue, hy, hz, update_link]

theorem linklist_free_loop_spec (l : List Nat) (list : linklist V) (a : Ptr)
    (hlive : ∀ p ∈ l, list.nodes.Live p) (hnd : l.Nodup) (hc : Chain (nextOf list.nodes) a l none) :
    ∃ list', linklist_free.loop l.length a list = .done list' ∧
      list'.freed = list.freed ++
        (if list.free_func then l.filterMap (valueOf list.nodes) else []) ∧
      ∀ q, list'.nodes.Live q ↔ q ∉ l ∧ list.nodes.Live q := by
  induction l generalizing list a with
  | nil => exact ⟨list, rfl, by simp, by simp⟩
  | cons p l ih =>
    obtain ⟨rfl, hl⟩ := hc
    obtain ⟨hpl, hnd⟩ := List.nodup_cons.mp hnd
    have hp : list.nodes.Live p := hlive p List.mem_cons_self
    obtain ⟨n, hn⟩ := Store.live_iff.mp hp
    have hne : ∀ q ∈ l, q ≠ p := by
      rintro q hq rfl
      exact hpl hq
    let list₁ : linklist V := { callFree list n.value with nodes := list.nodes.drop p }
    have hlive₁ : ∀ q ∈ l, list₁.nodes.Live q := by
      intro q hq
      simpa [list₁] using ⟨hne q hq, hlive q (List.mem_cons_of_mem p hq)⟩
    have hc₁ : Chain (nextOf list₁.nodes) (nextOf list.nodes p) l none := by
      simpa [list₁] using hl.update hpl none
    obtain ⟨list', heq, hfreed, hlive'⟩ := ih list₁ _ hlive₁ hnd hc₁
    refine ⟨list', ?_, ?_, ?_⟩
    · rw [← heq, nextOf_cell hn]
      simp [linklist_free.loop, Store.read, hn, hp, list₁]
    · have hvals : l.filterMap (valueOf list₁.nodes) = l.filterMap (valueOf list.nodes) := by
        apply List.filterMap_congr
        intro q hq
        simp [list₁, hne q hq]
      rw [hfreed, hvals]
      simp only [list₁, callFree_freed, callFree_free_func]
      split <;> simp [valueOf_cell hn]
    · intro q
      rw [hlive']
      simp [list₁]
      tauto

end Akio.Linklist
