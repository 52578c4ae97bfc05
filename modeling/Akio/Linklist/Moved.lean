import Akio.Linklist.Move

/-!
# A list after `linklist_move_node`

The node that was moved is found by one traversal at most: from `head` where it was put before the first node, and
from `tail` where it was put behind the last one. `linklist_free` counts on the one from `head`.
-/

namespace Akio.Linklist

variable {V : Type} {list list' list'' : linklist V} {l l₁ l₂ : List Nat} {p q src dst : Nat} {after : Int} {x y : Ptr}

/-! ## What a call leaves alone -/

/-- Only pointers are written. -/
structure Relinked (list list' : linklist V) : Prop where
  live : ∀ q, list'.nodes.Live q ↔ list.nodes.Live q
  values : valueOf list'.nodes = valueOf list.nodes
  len : list'.len = list.len
  free_func : list'.free_func = list.free_func
  freed : list'.freed = list.freed

theorem Relinked.trans (h : Relinked list list') (h' : Relinked list' list'') : Relinked list list'' where
  live q := (h'.live q).trans (h.live q)
  values := h'.values.trans h.values
  len := h'.len.trans h.len
  free_func := h'.free_func.trans h.free_func
  freed := h'.freed.trans h.freed

theorem relinked_ends (list : linklist V) (head tail : Ptr) : Relinked list { list with head, tail } :=
  ⟨fun _ => Iff.rfl, rfl, rfl, rfl, rfl⟩

theorem setNext_relinked (hdone : setNext list x y = .done list') : Relinked list list' := by
  obtain ⟨nodes, hmodify, -⟩ := Outcome.bind_eq_done.mp hdone
  cases x with
  | none => cases hmodify
  | some p =>
    rw [setNext_live (Store.live_of_modify hmodify)] at hdone
    cases hdone
    constructor <;> simp

theorem setPrev_relinked (hdone : setPrev list x y = .done list') : Relinked list list' := by
  obtain ⟨nodes, hmodify, -⟩ := Outcome.bind_eq_done.mp hdone
  cases x with
  | none => cases hmodify
  | some p =>
    rw [setPrev_live (Store.live_of_modify hmodify)] at hdone
    cases hdone
    constructor <;> simp

theorem unlink_relinked (hdone : linklist_move_node.unlink list x = .done list') : Relinked list list' := by
  obtain ⟨s, -, hdone⟩ := Outcome.bind_eq_done.mp hdone
  have hsecond : ∀ {list₁ : linklist V}, (do
      let s ← list₁.nodes.read x
      if s.next ≠ none then setPrev list₁ s.next s.prev else pure { list₁ with tail := s.prev }) = .done list' →
      Relinked list₁ list' := by
    intro list₁ hdone
    obtain ⟨s, -, hdone⟩ := Outcome.bind_eq_done.mp hdone
    split_ifs at hdone
    · exact setPrev_relinked hdone
    · cases hdone
      exact relinked_ends list₁ _ _
  dsimp only at hdone
  split_ifs at hdone
  · obtain ⟨list₁, hnext, hdone⟩ := Outcome.bind_eq_done.mp hdone
    exact (setNext_relinked hnext).trans (hsecond hdone)
  · exact (relinked_ends list _ _).trans (hsecond hdone)

theorem relink_relinked (hdone : linklist_move_node.relink list x y after = .done list') : Relinked list list' := by
  unfold linklist_move_node.relink at hdone
  split_ifs at hdone
  · obtain ⟨list₁, hprev, hdone⟩ := Outcome.bind_eq_done.mp hdone
    obtain ⟨d, -, hdone⟩ := Outcome.bind_eq_done.mp hdone
    obtain ⟨list₂, hnext, hpure⟩ := Outcome.bind_eq_done.mp hdone
    have hrelinked := (setPrev_relinked hprev).trans (setNext_relinked hnext)
    split_ifs at hpure <;> cases hpure
    · exact hrelinked.trans (relinked_ends list₂ _ _)
    · exact hrelinked
  · obtain ⟨list₁, hnext, hdone⟩ := Outcome.bind_eq_done.mp hdone
    obtain ⟨d, -, hdone⟩ := Outcome.bind_eq_done.mp hdone
    obtain ⟨list₂, hprev, hpure⟩ := Outcome.bind_eq_done.mp hdone
    have hrelinked := (setNext_relinked hnext).trans (setPrev_relinked hprev)
    split_ifs at hpure <;> cases hpure
    · exact hrelinked.trans (relinked_ends list₂ _ _)
    · exact hrelinked

/-! ## The traversals -/

theorem lead {link : Nat → Ptr} {a : Ptr} (hc : Chain link a l none) (hpl : p ∉ l) (q : Nat) :
    Chain (Function.update link p (some q)) (if a = some q then some p else a)
      (if l.head? = some q then p :: l else l) none := by
  have hrest := hc.update hpl (some q)
  rw [← hc.head_eq]
  split_ifs with hq
  · subst hq
    refine ⟨rfl, ?_⟩
    rw [Function.update_self]
    exact hrest
  · exact hrest

theorem relink_traversals (hp : list.nodes.Live p) (hq : list.nodes.Live q) (hqp : q ≠ p) (hpl : p ∉ l)
    (hforward : Chain (nextOf list.nodes) list.head l none)
    (hbackward : Chain (prevOf list.nodes) list.tail l.reverse none) (after : Int) :
    ∃ list', linklist_move_node.relink list (some p) (some q) after = .done list' ∧
      Chain (nextOf list'.nodes) list'.head (if after = 0 ∧ l.head? = some q then p :: l else l) none ∧
      Chain (prevOf list'.nodes) list'.tail
        (if after ≠ 0 ∧ l.getLast? = some q then l ++ [p] else l).reverse none := by
  obtain ⟨n, hn⟩ := Store.live_iff.mp hq
  have hpr : p ∉ l.reverse := List.mem_reverse.not.mpr hpl
  by_cases ha : after = 0
  · refine ⟨{ list with
      head := if list.head = some q then some p else list.head
      nodes := linkPrev (linkNext list.nodes p (some q)) p n.prev }, ?_, ?_, ?_⟩
    · simp [linklist_move_node.relink, ha, hp, hn, hqp, Store.read, linkNext, linkPrev, Store.adjust_cell_of_ne]
      split <;> rfl
    · simpa [ha, hp] using lead hforward hpl q
    · simpa [ha, hp] using hbackward.update hpr n.prev
  · refine ⟨{ list with
      tail := if list.tail = some q then some p else list.tail
      nodes := linkNext (linkPrev list.nodes p (some q)) p n.next }, ?_, ?_, ?_⟩
    · simp [linklist_move_node.relink, ha, hp, hn, hqp, Store.read, linkNext, linkPrev, Store.adjust_cell_of_ne]
      split <;> rfl
    · simpa [ha, hp] using hforward.update hpl n.next
    · have hlead := lead hbackward hpr q
      rw [List.head?_reverse] at hlead
      have hnodes : (if after ≠ 0 ∧ l.getLast? = some q then l ++ [p] else l).reverse =
          if l.getLast? = some q then p :: l.reverse else l.reverse := by
        by_cases hlast : l.getLast? = some q <;> simp [ha, hlast]
      rw [hnodes]
      simpa [hp] using hlead

theorem linklist_move_node_traversals (h : WellFormed list l) (hsrc : src ∈ l) (hdst : dst ∈ l) (hne : src ≠ dst)
    (after : Int) :
    ∃ list', linklist_move_node (some list) (some src) (some dst) after = .done (some list', .list) ∧
      Relinked list list' ∧
      Chain (nextOf list'.nodes) list'.head
        (if after = 0 ∧ (l.erase src).head? = some dst then src :: l.erase src else l.erase src) none ∧
      Chain (prevOf list'.nodes) list'.tail
        (if after ≠ 0 ∧ (l.erase src).getLast? = some dst then l.erase src ++ [src] else l.erase src).reverse none := by
  obtain ⟨l₁, l₂, rfl⟩ := List.append_of_mem hsrc
  have hrest : (l₁ ++ src :: l₂).erase src = l₁ ++ l₂ := by
    have hnot : src ∉ l₁ := fun hin => h.nodup_rest.1 (List.mem_append_left l₂ hin)
    rw [List.erase_append_right _ hnot, List.erase_cons_head]
  rw [hrest]
  obtain ⟨list₁, hunlink, hlive, -, hforward, hbackward⟩ := unlink_spec h
  obtain ⟨list', hrelink, hnext, hprev⟩ := relink_traversals ((hlive src).mpr (h.live src hsrc))
    ((hlive dst).mpr (h.live dst hdst)) hne.symm h.nodup_rest.1 hforward hbackward after
  refine ⟨list', ?_, (unlink_relinked hunlink).trans (relink_relinked hrelink), hnext, hprev⟩
  unfold linklist_move_node
  simp [hne, hunlink, hrelink]

/-! ## `linklist_free` -/

theorem free_loop_past (hlive : ∀ p ∈ l, list.nodes.Live p) (hnd : l.Nodup) (hc : Chain (nextOf list.nodes) x l none) :
    linklist_free.loop (l.length + 1) x list = .fault := by
  induction l generalizing list x with
  | nil =>
    obtain rfl := hc
    rfl
  | cons p l ih =>
    obtain ⟨rfl, hl⟩ := hc
    obtain ⟨hpl, hnd⟩ := List.nodup_cons.mp hnd
    have hp := hlive p List.mem_cons_self
    obtain ⟨n, hn⟩ := Store.live_iff.mp hp
    let list₁ : linklist V := { callFree list n.value with nodes := list.nodes.drop p }
    have hlive₁ : ∀ q ∈ l, list₁.nodes.Live q := by
      intro q hq
      have hqp : q ≠ p := by
        rintro rfl
        exact hpl hq
      simpa [list₁] using ⟨hqp, hlive q (List.mem_cons_of_mem p hq)⟩
    have hc₁ : Chain (nextOf list₁.nodes) (nextOf list.nodes p) l none := by
      simpa [list₁] using hl.update hpl none
    have hfault := ih hlive₁ hnd hc₁
    rw [nextOf_cell hn] at hfault
    simpa [linklist_free.loop, Store.read, hn, hp, list₁] using hfault

/-- After a move the list can be freed where the node was put before the first one, and `free_func` then gets the
values in the new order. After any other move `linklist_free` reads through NULL. -/
theorem linklist_free_moved (h : WellFormed list l) (hsrc : src ∈ l) (hdst : dst ∈ l) (hne : src ≠ dst) (after : Int) :
    ∃ list', linklist_move_node (some list) (some src) (some dst) after = .done (some list', .list) ∧
      if after = 0 ∧ (l.erase src).head? = some dst then
        ∃ list'', linklist_free (some list') = .done (some list'') ∧
          list''.freed = list.freed ++
            (if list.free_func then (moved l src dst after).filterMap (valueOf list.nodes) else []) ∧
          ∀ q, list''.nodes.Live q ↔ q ∉ l ∧ list.nodes.Live q
      else linklist_free (some list') = .fault := by
  obtain ⟨list', hmove, hr, hforward, -⟩ := linklist_move_node_traversals h hsrc hdst hne after
  refine ⟨list', hmove, ?_⟩
  have hlength : list'.len = (l.erase src).length + 1 := by
    rw [hr.len, h.len, List.length_erase_of_mem hsrc]
    have hpos := List.length_pos_of_mem hsrc
    omega
  have hlive : ∀ p ∈ l, list'.nodes.Live p := fun p hp => (hr.live p).mpr (h.live p hp)
  by_cases hfirst : after = 0 ∧ (l.erase src).head? = some dst
  · rw [if_pos hfirst] at hforward ⊢
    have hperm : (src :: l.erase src).Perm l := (List.perm_cons_erase hsrc).symm
    have hmoved : moved l src dst after = src :: l.erase src := by
      obtain ⟨rest, hrest⟩ := List.head?_eq_some_iff.mp hfirst.2
      simp [moved, hfirst.1, hrest]
    obtain ⟨list'', heq, hfreed, hlive'⟩ := linklist_free_loop_spec (src :: l.erase src) list' list'.head
      (fun p hp => hlive p (hperm.mem_iff.mp hp)) (hperm.nodup_iff.mpr h.nodup) hforward
    refine ⟨list'', ?_, ?_, fun q => ?_⟩
    · rw [List.length_cons] at heq
      simp [linklist_free, hlength, heq]
    · rw [hfreed, hr.freed, hr.free_func, hr.values, hmoved]
    · rw [hlive', hr.live, hperm.mem_iff]
  · rw [if_neg hfirst] at hforward ⊢
    have hfault := free_loop_past (fun p hp => hlive p (List.mem_of_mem_erase hp)) (h.nodup.erase src) hforward
    simp [linklist_free, hlength, hfault]

/-- Node 1 moved before node 0, and behind it. -/
theorem linklist_free_moved_sample :
    (∃ list', linklist_move_node (some listPair) (some 1) (some 0) 0 = .done (some list', .list) ∧
      ∃ list'', linklist_free (some list') = .done (some list'') ∧ list''.freed = [] ∧
        ∀ q, list''.nodes.Live q ↔ q ∉ [0, 1] ∧ listPair.nodes.Live q) ∧
    ∃ list', linklist_move_node (some listPair) (some 1) (some 0) 1 = .done (some list', .list) ∧
      linklist_free (some list') = .fault :=
  ⟨linklist_free_moved listPair_wellFormed (by simp) (by simp) (by simp) 0,
    linklist_free_moved listPair_wellFormed (by simp) (by simp) (by simp) 1⟩

end Akio.Linklist
