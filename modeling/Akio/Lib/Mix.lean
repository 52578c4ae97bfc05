import Mathlib.Logic.Function.Basic
import Mathlib.Data.Int.GCD
import Mathlib.Data.Nat.ModEq
import Mathlib.Data.Nat.Prime.Basic

/-!
# Mixing steps of hash functions

A step takes in one input and is injective in the state and in the input. Then inputs that differ in one place leave
different states, whatever else is taken in.
-/

namespace Akio.Mix

open Function

/-! ## Operations on words that lose nothing -/

section Words

variable {w : Nat}

theorem xor_injective (y : BitVec w) : Injective fun x => x ^^^ y :=
  fun _ _ h => (BitVec.xor_left_inj y).mp h

theorem xor_injective' (x : BitVec w) : Injective fun y => x ^^^ y :=
  fun _ _ h => (BitVec.xor_right_inj x).mp h

theorem mul_injective {m : BitVec w} (hm : m.toNat % 2 = 1) : Injective fun x => x * m := by
  intro x y h
  have hmod : x.toNat * m.toNat ≡ y.toNat * m.toNat [MOD 2 ^ w] := by
    rw [Nat.ModEq, ← BitVec.toNat_mul, ← BitVec.toNat_mul]
    exact congrArg BitVec.toNat h
  have hcoprime : Nat.gcd (2 ^ w) m.toNat = 1 :=
    Nat.Coprime.pow_left w (Nat.coprime_two_left.mpr (Nat.odd_iff.mpr hm))
  have hxy := Nat.ModEq.cancel_right_of_coprime hcoprime hmod
  rw [Nat.ModEq, Nat.mod_eq_of_lt x.isLt, Nat.mod_eq_of_lt y.isLt] at hxy
  exact BitVec.eq_of_toNat_eq hxy

/-- The top bits are not touched, and each bit below is recovered from one that is `s` higher. -/
theorem xor_shift_injective {s : Nat} (hs : 0 < s) : Injective fun x : BitVec w => x ^^^ x >>> s := by
  intro x y h
  have hbit : ∀ n i, w - i ≤ n → x.getLsbD i = y.getLsbD i := by
    intro n
    induction n with
    | zero =>
      intro i hi
      rw [BitVec.getLsbD_of_ge x i (by omega), BitVec.getLsbD_of_ge y i (by omega)]
    | succ n ih =>
      intro i hi
      have hi' := congrArg (fun z => z.getLsbD i) h
      simp only [BitVec.getLsbD_xor, BitVec.getLsbD_ushiftRight] at hi'
      by_cases hlt : i < w
      · rw [ih (s + i) (by omega)] at hi'
        exact (Bool.xor_left_inj).mp hi'
      · rw [BitVec.getLsbD_of_ge x i (by omega), BitVec.getLsbD_of_ge y i (by omega)]
  exact BitVec.eq_of_getLsbD_eq fun i _ => hbit w i (by omega)

end Words

/-! ## Runs of a step -/

structure Mixing {σ α : Type*} (step : σ → α → σ) : Prop where
  state : ∀ a, Injective fun s => step s a
  input : ∀ s, Injective (step s)

namespace Mixing

variable {σ α : Type*} {step : σ → α → σ} {s : σ} {a b : α} {before after : List α}

theorem foldl_injective (h : Mixing step) (as : List α) : Injective fun s => as.foldl step s := by
  induction as with
  | nil => exact injective_id
  | cons a as ih => exact ih.comp (h.state a)

theorem foldl_one_place (h : Mixing step) :
    (before ++ a :: after).foldl step s = (before ++ b :: after).foldl step s ↔ a = b := by
  rw [List.foldl_append, List.foldl_append, List.foldl_cons, List.foldl_cons]
  constructor
  · intro heq
    exact h.input _ (h.foldl_injective after heq)
  · rintro rfl
    rfl

end Mixing

end Akio.Mix
