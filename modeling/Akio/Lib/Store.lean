import Akio.Lib.Outcome
import Mathlib.Logic.Function.Basic

/-!
# Memory blocks of one kind

An address is a number and NULL is `none`. `alloc` never gives an address out twice, so a freed
address stays freed and each later use of it is a fault.
-/

namespace Akio

abbrev Ptr := Option Nat

structure Store (α : Type) where
  cell : Nat → Option α
  next : Nat
  fresh : ∀ p, next ≤ p → cell p = none

namespace Store

variable {α β : Type} {s : Store α} {p q : Nat} {a : α} {f : α → α}

def Live (s : Store α) (p : Nat) : Prop := (s.cell p).isSome

instance (s : Store α) (p : Nat) : Decidable (s.Live p) := by unfold Live; infer_instance

def empty : Store α := ⟨fun _ => none, 0, fun _ _ => rfl⟩

/-- The block behind a pointer. -/
def read (s : Store α) (p : Ptr) : Outcome α := Outcome.ofOption (p.bind s.cell)

def adjust (s : Store α) (p : Nat) (f : α → α) : Store α where
  cell := Function.update s.cell p ((s.cell p).map f)
  next := s.next
  fresh q hq := by
    by_cases h : q = p
    · subst h
      simp [s.fresh q hq]
    · rw [Function.update_of_ne h]
      exact s.fresh q hq

def drop (s : Store α) (p : Nat) : Store α where
  cell := Function.update s.cell p none
  next := s.next
  fresh q hq := by
    by_cases h : q = p
    · subst h
      simp
    · rw [Function.update_of_ne h]
      exact s.fresh q hq

/-- Changes the block behind a pointer. -/
def modify (s : Store α) : Ptr → (α → α) → Outcome (Store α)
  | none, _ => .fault
  | some p, f => if s.Live p then .done (s.adjust p f) else .fault

def free (s : Store α) : Ptr → Outcome (Store α)
  | none => .fault
  | some p => if s.Live p then .done (s.drop p) else .fault

/-- A new block that holds `a`, and its address. -/
def alloc (s : Store α) (a : α) : Nat × Store α :=
  (s.next,
    { cell := Function.update s.cell s.next (some a)
      next := s.next + 1
      fresh := fun q hq => by
        rw [Function.update_of_ne (by omega)]
        exact s.fresh q (by omega) })

theorem live_iff : s.Live p ↔ ∃ a, s.cell p = some a := Option.isSome_iff_exists

theorem live_of_cell (h : s.cell p = some a) : s.Live p := live_iff.mpr ⟨a, h⟩

theorem next_not_live : ¬ s.Live s.next := by simp [Live, s.fresh s.next (Nat.le_refl _)]

theorem Live.lt_next (h : s.Live p) : p < s.next := by
  apply Nat.lt_of_not_le
  intro hle
  simp [Live, s.fresh p hle] at h

theorem Live.ne_next (h : s.Live p) : p ≠ s.next := Nat.ne_of_lt h.lt_next

@[simp] theorem empty_cell : (empty : Store α).cell p = none := rfl
@[simp] theorem not_live_empty : ¬ (empty : Store α).Live p := by simp [Live]

theorem read_of_cell (h : s.cell p = some a) : s.read (some p) = .done a := by simp [read, h]

theorem live_of_read (h : s.read (some p) = .done a) : s.Live p := live_of_cell (Outcome.ofOption_eq_done.mp h)

theorem read_eq_done {p : Ptr} : s.read p = .done a ↔ ∃ q, p = some q ∧ s.cell q = some a := by
  simp [read, Outcome.ofOption_eq_done, Option.bind_eq_some_iff]

@[simp] theorem modify_live (h : s.Live p) : s.modify (some p) f = .done (s.adjust p f) := if_pos h

theorem live_of_modify {s' : Store α} (h : s.modify (some p) f = .done s') : s.Live p := by
  apply by_contra
  intro hdead
  have hfault : s.modify (some p) f = .fault := if_neg hdead
  rw [hfault] at h
  cases h

@[simp] theorem free_live (h : s.Live p) : s.free (some p) = .done (s.drop p) := if_pos h

@[simp] theorem alloc_fst : (s.alloc a).1 = s.next := rfl
@[simp] theorem alloc_next : (s.alloc a).2.next = s.next + 1 := rfl

theorem adjust_cell_self : (s.adjust p f).cell p = (s.cell p).map f := Function.update_self _ _ _
theorem adjust_cell_of_ne (h : q ≠ p) : (s.adjust p f).cell q = s.cell q := Function.update_of_ne h _ _
theorem drop_cell_self : (s.drop p).cell p = none := Function.update_self _ _ _
theorem drop_cell_of_ne (h : q ≠ p) : (s.drop p).cell q = s.cell q := Function.update_of_ne h _ _
theorem alloc_cell_self : (s.alloc a).2.cell s.next = some a := Function.update_self _ _ _
theorem alloc_cell_of_ne (h : q ≠ s.next) : (s.alloc a).2.cell q = s.cell q :=
  Function.update_of_ne h _ _

@[simp] theorem adjust_live : (s.adjust p f).Live q ↔ s.Live q := by
  by_cases h : q = p
  · subst h
    simp [Live, adjust_cell_self]
  · simp [Live, adjust_cell_of_ne h]

@[simp] theorem drop_live : (s.drop p).Live q ↔ q ≠ p ∧ s.Live q := by
  by_cases h : q = p
  · subst h
    simp [Live, drop_cell_self]
  · simp [Live, drop_cell_of_ne h, h]

@[simp] theorem alloc_live : (s.alloc a).2.Live q ↔ q = s.next ∨ s.Live q := by
  by_cases h : q = s.next
  · subst h
    simp [Live, alloc_cell_self]
  · simp [Live, alloc_cell_of_ne h, h]

/-! ## One field of each block -/

/-- The field `g` of the block at `p`, or `d` where there is none. -/
def field (s : Store α) (g : α → β) (d : β) (p : Nat) : β := ((s.cell p).map g).getD d

variable {g : α → β} {d : β}

theorem field_of_cell (h : s.cell p = some a) : s.field g d p = g a := by simp [field, h]

theorem field_of_not_live (h : ¬ s.Live p) : s.field g d p = d := by
  unfold field
  rw [Option.not_isSome_iff_eq_none.mp h]
  rfl

theorem field_congr {s' : Store α} (h : s'.cell p = s.cell p) : s'.field g d p = s.field g d p := by
  unfold field
  rw [h]

theorem field_adjust_set {b : β} (hf : ∀ a, g (f a) = b) (h : s.Live p) :
    (s.adjust p f).field g d = Function.update (s.field g d) p b := by
  obtain ⟨a, ha⟩ := live_iff.mp h
  funext q
  by_cases hq : q = p
  · subst hq
    simp [field, adjust_cell_self, ha, hf]
  · simp [field, adjust_cell_of_ne hq, hq]

theorem field_adjust_keep (hf : ∀ a, g (f a) = g a) : (s.adjust p f).field g d = s.field g d := by
  funext q
  by_cases hq : q = p
  · subst hq
    cases h : s.cell q <;> simp [field, adjust_cell_self, h, hf]
  · simp [field, adjust_cell_of_ne hq]

theorem field_alloc : (s.alloc a).2.field g d = Function.update (s.field g d) s.next (g a) := by
  funext q
  by_cases hq : q = s.next
  · subst hq
    simp [field, alloc_cell_self]
  · simp [field, alloc_cell_of_ne hq, hq]

theorem field_drop : (s.drop p).field g d = Function.update (s.field g d) p d := by
  funext q
  by_cases hq : q = p
  · subst hq
    simp [field, drop_cell_self]
  · simp [field, drop_cell_of_ne hq, hq]

end Store

end Akio
