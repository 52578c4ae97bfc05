import Mathlib.Data.List.Basic

/-!
# What is held

A trace acquires resources and releases them. It ends well where nothing is released that is not held, and what
is held at its end was acquired and not released.
-/

namespace Akio.Ledger

inductive Use (α : Type) where
  | acquire (a : α)
  | release (a : α)
deriving DecidableEq, Repr

variable {α : Type} [DecidableEq α] {h h' : List α} {uses uses' : List (Use α)} {a : α}

/-- What is held after `uses`, with `h` held before. -/
def held (h : List α) : List (Use α) → Option (List α)
  | [] => some h
  | .acquire a :: uses => held (a :: h) uses
  | .release a :: uses => if a ∈ h then held (h.erase a) uses else none

theorem held_append : held h (uses ++ uses') = (held h uses).bind fun h' => held h' uses' := by
  induction uses generalizing h with
  | nil => rfl
  | cons use uses ih =>
    cases use with
    | acquire a => exact ih
    | release a =>
      simp only [List.cons_append, held]
      split_ifs
      · exact ih
      · rfl

theorem held_acquire (hheld : held h uses = some h') : held h (uses ++ [.acquire a]) = some (a :: h') := by
  rw [held_append, hheld]
  rfl

theorem held_release (hheld : held h uses = some h') (ha : a ∈ h') :
    held h (uses ++ [.release a]) = some (h'.erase a) := by
  rw [held_append, hheld]
  exact if_pos ha

theorem held_count (hheld : held h uses = some h') (a : α) :
    h.count a + uses.count (.acquire a) = h'.count a + uses.count (.release a) := by
  induction uses generalizing h with
  | nil =>
    obtain rfl := Option.some.inj hheld
    rfl
  | cons use uses ih =>
    cases use with
    | acquire b =>
      have hcount := ih hheld
      rw [List.count_cons] at hcount
      simp only [List.count_cons, beq_iff_eq, Use.acquire.injEq, reduceCtorEq, if_false] at hcount ⊢
      omega
    | release b =>
      unfold held at hheld
      split_ifs at hheld with hb
      have hcount := ih hheld
      rw [List.count_erase] at hcount
      simp only [List.count_cons, beq_iff_eq, Use.release.injEq, reduceCtorEq, if_false] at hcount ⊢
      by_cases hba : b = a
      · subst hba
        have hpos := List.count_pos_iff.mpr hb
        simp only [if_true] at hcount ⊢
        omega
      · simp only [if_neg hba] at hcount ⊢
        omega

/-! ## What was acquired last -/

/-- The latest use of `a` acquired it. -/
def live (uses : List (Use α)) (a : α) : Bool :=
  uses.foldl (fun on use => if use = .acquire a then true else if use = .release a then false else on) false

theorem live_acquire {b : α} : live (uses ++ [.acquire a]) b = if a = b then true else live uses b := by
  unfold live
  rw [List.foldl_append]
  simp

theorem live_release {b : α} : live (uses ++ [.release a]) b = if a = b then false else live uses b := by
  unfold live
  rw [List.foldl_append]
  simp

end Akio.Ledger
