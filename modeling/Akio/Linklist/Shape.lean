import Akio.Linklist.Model

/-!
# The shape of a list

`WellFormed list l`: the list holds exactly the nodes of `l`, in this order, by either pointer.
`WellFormed.splice` and `WellFormed.unlink` say what an edit of the pointers must do to put a node
between two parts of a list, and to take one out.
-/

namespace Akio.Linklist

variable {V : Type} {list list' : linklist V} {l l₁ l₂ : List Nat} {p q : Nat}

/-! ## The fields of the nodes -/

def nextOf (nodes : Store (list_node V)) : Nat → Ptr := nodes.field (·.next) none
def prevOf (nodes : Store (list_node V)) : Nat → Ptr := nodes.field (·.prev) none
def valueOf (nodes : Store (list_node V)) : Nat → Option V := nodes.field (fun n => some n.value) none

variable {nodes : Store (list_node V)} {n : list_node V}

theorem nextOf_cell (h : nodes.cell p = some n) : nextOf nodes p = n.next := Store.field_of_cell h
theorem prevOf_cell (h : nodes.cell p = some n) : prevOf nodes p = n.prev := Store.field_of_cell h
theorem valueOf_cell (h : nodes.cell p = some n) : valueOf nodes p = some n.value :=
  Store.field_of_cell h

def linkNext (nodes : Store (list_node V)) (p : Nat) (x : Ptr) : Store (list_node V) :=
  nodes.adjust p fun n => { n with next := x }

def linkPrev (nodes : Store (list_node V)) (p : Nat) (x : Ptr) : Store (list_node V) :=
  nodes.adjust p fun n => { n with prev := x }

variable {x : Ptr}

@[simp] theorem live_linkNext : (linkNext nodes p x).Live q ↔ nodes.Live q := Store.adjust_live
@[simp] theorem live_linkPrev : (linkPrev nodes p x).Live q ↔ nodes.Live q := Store.adjust_live

@[simp] theorem nextOf_linkNext (h : nodes.Live p) :
    nextOf (linkNext nodes p x) = Function.update (nextOf nodes) p x :=
  Store.field_adjust_set (fun _ => rfl) h
@[simp] theorem nextOf_linkPrev : nextOf (linkPrev nodes p x) = nextOf nodes :=
  Store.field_adjust_keep (fun _ => rfl)
@[simp] theorem prevOf_linkPrev (h : nodes.Live p) :
    prevOf (linkPrev nodes p x) = Function.update (prevOf nodes) p x :=
  Store.field_adjust_set (fun _ => rfl) h
@[simp] theorem prevOf_linkNext : prevOf (linkNext nodes p x) = prevOf nodes :=
  Store.field_adjust_keep (fun _ => rfl)
@[simp] theorem valueOf_linkNext : valueOf (linkNext nodes p x) = valueOf nodes :=
  Store.field_adjust_keep (fun _ => rfl)
@[simp] theorem valueOf_linkPrev : valueOf (linkPrev nodes p x) = valueOf nodes :=
  Store.field_adjust_keep (fun _ => rfl)

@[simp] theorem nextOf_alloc :
    nextOf (nodes.alloc n).2 = Function.update (nextOf nodes) nodes.next n.next := Store.field_alloc
@[simp] theorem prevOf_alloc :
    prevOf (nodes.alloc n).2 = Function.update (prevOf nodes) nodes.next n.prev := Store.field_alloc
@[simp] theorem valueOf_alloc :
    valueOf (nodes.alloc n).2 = Function.update (valueOf nodes) nodes.next (some n.value) :=
  Store.field_alloc

@[simp] theorem nextOf_drop : nextOf (nodes.drop p) = Function.update (nextOf nodes) p none :=
  Store.field_drop
@[simp] theorem prevOf_drop : prevOf (nodes.drop p) = Function.update (prevOf nodes) p none :=
  Store.field_drop
@[simp] theorem valueOf_drop : valueOf (nodes.drop p) = Function.update (valueOf nodes) p none :=
  Store.field_drop

@[simp] theorem setNext_live (h : list.nodes.Live p) :
    setNext list (some p) x = .done { list with nodes := linkNext list.nodes p x } := by
  simp [setNext, h, linkNext]

@[simp] theorem setPrev_live (h : list.nodes.Live p) :
    setPrev list (some p) x = .done { list with nodes := linkPrev list.nodes p x } := by
  simp [setPrev, h, linkPrev]

/-! ## Well-formed lists -/

structure WellFormed (list : linklist V) (l : List Nat) : Prop where
  live : ∀ p ∈ l, list.nodes.Live p
  nodup : l.Nodup
  len : list.len = l.length
  forward : Chain (nextOf list.nodes) list.head l none
  backward : Chain (prevOf list.nodes) list.tail l.reverse none

namespace WellFormed

theorem head_eq (h : WellFormed list l) : list.head = l.head? := h.forward.head_eq

theorem tail_eq (h : WellFormed list l) : list.tail = l.getLast? := by
  rw [h.backward.head_eq, List.head?_reverse]

theorem next_eq (h : WellFormed list (l₁ ++ p :: l₂)) : nextOf list.nodes p = l₂.head? := by
  obtain ⟨c, -, rfl, h₂⟩ := Chain.append_iff.mp h.forward
  exact h₂.head_eq

theorem prev_eq (h : WellFormed list (l₁ ++ p :: l₂)) : prevOf list.nodes p = l₁.getLast? := by
  have hb := h.backward
  rw [List.reverse_append, List.reverse_cons, List.append_assoc, List.singleton_append] at hb
  obtain ⟨c, -, rfl, h₂⟩ := Chain.append_iff.mp hb
  rw [h₂.head_eq, List.head?_reverse]

theorem head_iff (h : WellFormed list (l₁ ++ p :: l₂)) : list.head = some p ↔ l₁ = [] := by
  rw [h.head_eq]
  rcases l₁ with _ | ⟨y, l₁⟩
  · simp
  · have hne : y ≠ p := by
      rintro rfl
      simpa using h.nodup
    simp [hne]

theorem tail_iff (h : WellFormed list (l₁ ++ p :: l₂)) : list.tail = some p ↔ l₂ = [] := by
  rw [h.tail_eq]
  rcases List.eq_nil_or_concat l₂ with rfl | ⟨l₂, y, rfl⟩
  · simp
  · have hne : y ≠ p := by
      rintro rfl
      have := (List.nodup_append.mp h.nodup).2.1
      simp at this
    rw [show l₁ ++ p :: l₂.concat y = (l₁ ++ p :: l₂) ++ [y] by simp, List.getLast?_concat]
    simp [hne]

theorem nodup_rest (h : WellFormed list (l₁ ++ p :: l₂)) : p ∉ l₁ ++ l₂ ∧ (l₁ ++ l₂).Nodup := by
  rw [← List.nodup_cons, ← List.nodup_middle]
  exact h.nodup

theorem splice (h : WellFormed list (l₁ ++ l₂)) (hp : ¬ list.nodes.Live p)
    (hlive : ∀ q, list'.nodes.Live q ↔ q = p ∨ list.nodes.Live q)
    (hlen : list'.len = list.len + 1)
    (hhead : list'.head = if l₁ = [] then some p else list.head)
    (htail : list'.tail = if l₂ = [] then some p else list.tail)
    (hnext : ∀ q, nextOf list'.nodes q = if q = p then l₂.head? else
      if l₁.getLast? = some q then some p else nextOf list.nodes q)
    (hprev : ∀ q, prevOf list'.nodes q = if q = p then l₁.getLast? else
      if l₂.head? = some q then some p else prevOf list.nodes q) :
    WellFormed list' (l₁ ++ p :: l₂) := by
  have hne : ∀ q ∈ l₁ ++ l₂, q ≠ p := by
    rintro q hq rfl
    exact hp (h.live q hq)
  constructor
  · intro q hq
    rw [hlive]
    simp only [List.mem_append, List.mem_cons] at hq
    rcases hq with hq | rfl | hq
    · exact Or.inr (h.live q (by simp [hq]))
    · exact Or.inl rfl
    · exact Or.inr (h.live q (by simp [hq]))
  · rw [List.nodup_middle, List.nodup_cons]
    exact ⟨fun hq => hne p hq rfl, h.nodup⟩
  · rw [hlen, h.len]
    simp only [List.length_append, List.length_cons]
    omega
  · rw [hhead]
    apply Chain.insert h.forward (by simp [hnext]) _ _ h.nodup
    · intro q hq
      rw [hnext, if_neg (hne q (by simp [List.mem_of_getLast? hq])), if_pos hq]
    · intro q hq hlast
      rw [hnext, if_neg (hne q hq), if_neg hlast]
  · have htail' : list'.tail = if l₂.reverse = [] then some p else list.tail := by simp [htail]
    rw [htail', List.reverse_append, List.reverse_cons, List.append_assoc, List.singleton_append]
    have hnd : (l₂.reverse ++ l₁.reverse).Nodup := by
      rw [← List.reverse_append]
      exact List.nodup_reverse.mpr h.nodup
    apply Chain.insert (by simpa using h.backward) _ _ _ hnd
    · simp [hprev]
    · intro q hq
      rw [List.getLast?_reverse] at hq
      rw [hprev, if_neg (hne q (by simp [List.mem_of_head? hq])), if_pos hq]
    · intro q hq hlast
      rw [List.getLast?_reverse] at hlast
      rw [hprev, if_neg (hne q (by simpa [or_comm] using hq)), if_neg hlast]

theorem bypass (h : WellFormed list (l₁ ++ p :: l₂))
    (hhead : list'.head = if l₁ = [] then l₂.head? else list.head)
    (htail : list'.tail = if l₂ = [] then l₁.getLast? else list.tail)
    (hnext : ∀ q, q ≠ p → nextOf list'.nodes q =
      if l₁.getLast? = some q then l₂.head? else nextOf list.nodes q)
    (hprev : ∀ q, q ≠ p → prevOf list'.nodes q =
      if l₂.head? = some q then l₁.getLast? else prevOf list.nodes q) :
    Chain (nextOf list'.nodes) list'.head (l₁ ++ l₂) none ∧
      Chain (prevOf list'.nodes) list'.tail (l₁ ++ l₂).reverse none := by
  obtain ⟨hpl, hnd⟩ := h.nodup_rest
  have hne : ∀ q ∈ l₁ ++ l₂, q ≠ p := by
    rintro q hq rfl
    exact hpl hq
  constructor
  · rw [hhead, ← h.next_eq]
    apply Chain.erase h.forward _ _ hnd
    · intro q hq
      rw [hnext q (hne q (by simp [List.mem_of_getLast? hq])), if_pos hq, h.next_eq]
    · intro q hq hlast
      rw [hnext q (hne q hq), if_neg hlast]
  · have htail' : list'.tail = if l₂.reverse = [] then prevOf list.nodes p else list.tail := by
      simp [htail, h.prev_eq]
    rw [htail', List.reverse_append]
    have hnd' : (l₂.reverse ++ l₁.reverse).Nodup := by
      rw [← List.reverse_append]
      exact List.nodup_reverse.mpr hnd
    apply Chain.erase (by simpa using h.backward) _ _ hnd'
    · intro q hq
      rw [List.getLast?_reverse] at hq
      rw [hprev q (hne q (by simp [List.mem_of_head? hq])), if_pos hq, h.prev_eq]
    · intro q hq hlast
      rw [List.getLast?_reverse] at hlast
      rw [hprev q (hne q (by simpa [or_comm] using hq)), if_neg hlast]

theorem unlink (h : WellFormed list (l₁ ++ p :: l₂))
    (hlive : ∀ q, list'.nodes.Live q ↔ q ≠ p ∧ list.nodes.Live q)
    (hlen : list'.len = list.len - 1)
    (hhead : list'.head = if l₁ = [] then l₂.head? else list.head)
    (htail : list'.tail = if l₂ = [] then l₁.getLast? else list.tail)
    (hnext : ∀ q, q ≠ p → nextOf list'.nodes q =
      if l₁.getLast? = some q then l₂.head? else nextOf list.nodes q)
    (hprev : ∀ q, q ≠ p → prevOf list'.nodes q =
      if l₂.head? = some q then l₁.getLast? else prevOf list.nodes q) :
    WellFormed list' (l₁ ++ l₂) := by
  obtain ⟨hpl, hnd⟩ := h.nodup_rest
  obtain ⟨hforward, hbackward⟩ := h.bypass hhead htail hnext hprev
  refine ⟨?_, hnd, ?_, hforward, hbackward⟩
  · intro q hq
    rw [hlive]
    refine ⟨?_, h.live q ?_⟩
    · rintro rfl
      exact hpl hq
    · simp only [List.mem_append, List.mem_cons] at hq ⊢
      tauto
  · rw [hlen, h.len]
    simp

end WellFormed

end Akio.Linklist
