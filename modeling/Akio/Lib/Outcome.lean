import Mathlib.Logic.Basic
import Mathlib.Tactic.Basic

/-!
# How a call ends

A C function with loops becomes a Lean function with a bound on the steps of its loops. Such a
function ends in one of three ways, and a call of the C function returns when some bound is enough.
-/

namespace Akio

inductive Outcome (α : Type) where
  /-- The call returned. -/
  | done (a : α)
  /-- Undefined behaviour: a null, freed or out-of-bounds access. -/
  | fault
  /-- The bound on the loop steps was used up. -/
  | running
deriving DecidableEq, Repr

namespace Outcome

variable {α β : Type}

def bind (x : Outcome α) (f : α → Outcome β) : Outcome β :=
  match x with
  | done a => f a
  | fault => fault
  | running => running

instance : Monad Outcome where
  pure := done
  bind := bind

@[simp] theorem pure_eq (a : α) : (pure a : Outcome α) = done a := rfl
@[simp] theorem done_bind (a : α) (f : α → Outcome β) : (done a >>= f) = f a := rfl
@[simp] theorem fault_bind (f : α → Outcome β) : ((fault : Outcome α) >>= f) = fault := rfl
@[simp] theorem running_bind (f : α → Outcome β) : ((running : Outcome α) >>= f) = running := rfl

theorem bind_eq_done {x : Outcome α} {f : α → Outcome β} {b : β} :
    (x >>= f) = done b ↔ ∃ a, x = done a ∧ f a = done b := by
  cases x <;> simp

/-- Undefined behaviour where there is nothing to read. -/
def ofOption : Option α → Outcome α
  | some a => done a
  | none => fault

@[simp] theorem ofOption_some (a : α) : ofOption (some a) = done a := rfl
@[simp] theorem ofOption_none : (ofOption none : Outcome α) = fault := rfl

theorem ofOption_eq_done {o : Option α} {a : α} : ofOption o = done a ↔ o = some a := by
  cases o <;> simp

/-- What a call returned, to compute runs with. -/
def toOption : Outcome α → Option α
  | done a => some a
  | _ => none

theorem toOption_eq_some {x : Outcome α} {a : α} : x.toOption = some a ↔ x = done a := by
  cases x <;> simp [toOption]

/-! ## What a call ensures -/

/-- The call keeps to defined behaviour, and `P` holds of what it returns. -/
def Ends (P : α → Prop) : Outcome α → Prop
  | done a => P a
  | fault => False
  | running => True

theorem ends_iff {x : Outcome α} {P : α → Prop} : x.Ends P ↔ x ≠ fault ∧ ∀ a, x = done a → P a := by
  cases x <;> simp [Ends]

theorem Ends.mono {x : Outcome α} {P Q : α → Prop} (h : x.Ends P) (hpq : ∀ a, P a → Q a) : x.Ends Q := by
  cases x with
  | done a => exact hpq a h
  | fault => exact h
  | running => trivial

theorem Ends.bind {x : Outcome α} {f : α → Outcome β} {P : α → Prop} {Q : β → Prop} (h : x.Ends P)
    (hf : ∀ a, P a → (f a).Ends Q) : (x >>= f).Ends Q := by
  cases x with
  | done a => exact hf a h
  | fault => exact h.elim
  | running => trivial

/-! ## Calls with a bound on their steps -/

/-- The call returns `a`: a large enough bound lets it end. -/
def Returns (f : Nat → Outcome α) (a : α) : Prop := ∃ fuel, f fuel = done a

/-- A larger bound does not change a call that returned. -/
def Steady (f : Nat → Outcome α) : Prop :=
  ∀ ⦃n m : Nat⦄ ⦃a : α⦄, n ≤ m → f n = done a → f m = done a

theorem Steady.returns_unique {f : Nat → Outcome α} (hf : Steady f) {a b : α}
    (ha : Returns f a) (hb : Returns f b) : a = b := by
  obtain ⟨n, hn⟩ := ha
  obtain ⟨m, hm⟩ := hb
  have h := hf (Nat.le_max_left n m) hn
  rw [hf (Nat.le_max_right n m) hm] at h
  exact (done.inj h).symm

end Outcome

end Akio
