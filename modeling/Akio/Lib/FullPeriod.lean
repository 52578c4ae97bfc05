import Mathlib.Logic.Function.Iterate
import Mathlib.Tactic.Ring

/-!
# Linear congruential generators modulo a power of two

The generator `y ↦ a * y + c` with `a` one more than a multiple of 4 and `c` odd reaches every
residue modulo `2 ^ m` within `2 ^ m` steps, from any start.
-/

namespace Akio.FullPeriod

def next (a c y : Nat) : Nat := a * y + c

/-- `2 ^ m` steps at once are an affine map again: its factor is 1 modulo `2 ^ (m + 2)`, and its
offset is an odd multiple of `2 ^ m`. -/
theorem iterate_pow (b k m : Nat) : ∃ w v, ∀ y,
    (next (4 * b + 1) (2 * k + 1))^[2 ^ m] y = (2 ^ (m + 2) * w + 1) * y + 2 ^ m * (2 * v + 1) := by
  induction m with
  | zero => exact ⟨b, k, fun y => by simp [next]⟩
  | succ m ih =>
    obtain ⟨w, v, h⟩ := ih
    refine ⟨w + 2 ^ (m + 1) * w * w, v + 2 ^ m * w * (2 * v + 1), ?_⟩
    intro y
    rw [show 2 ^ (m + 1) = 2 ^ m + 2 ^ m by ring, Function.iterate_add_apply, h y, h]
    ring

theorem iterate_pow_mod (b k m y : Nat) :
    (next (4 * b + 1) (2 * k + 1))^[2 ^ m] y % 2 ^ (m + 1) = (y + 2 ^ m) % 2 ^ (m + 1) := by
  obtain ⟨w, v, h⟩ := iterate_pow b k m
  rw [h, show (2 ^ (m + 2) * w + 1) * y + 2 ^ m * (2 * v + 1) =
    y + 2 ^ m + 2 ^ (m + 1) * (2 * w * y + v) by ring, Nat.add_mul_mod_self_left]

theorem other_half {p z j : Nat} (hz : z < p + p) (hj : j < p + p) (hmod : z % p = j % p)
    (hne : z ≠ j) : (z + p) % (p + p) = j := by
  have hsplit : ∀ t, t < p + p → t % p = if t < p then t else t - p := by
    intro t ht
    split
    · exact Nat.mod_eq_of_lt ‹_›
    · rw [Nat.mod_eq_sub_mod (by omega), Nat.mod_eq_of_lt (by omega)]
  rw [hsplit z hz, hsplit j hj] at hmod
  by_cases hzp : z < p
  · rw [if_pos hzp] at hmod
    split at hmod
    · omega
    · rw [Nat.mod_eq_of_lt (by omega)]
      omega
  · rw [if_neg hzp] at hmod
    split at hmod
    · rw [Nat.mod_eq_sub_mod (by omega), Nat.mod_eq_of_lt (by omega)]
      omega
    · omega

theorem reaches (b k m x j : Nat) (hj : j < 2 ^ m) :
    ∃ n < 2 ^ m, (next (4 * b + 1) (2 * k + 1))^[n] x % 2 ^ m = j := by
  induction m generalizing j with
  | zero => exact ⟨0, Nat.one_pos, by omega⟩
  | succ m ih =>
    have hpow : 2 ^ (m + 1) = 2 ^ m + 2 ^ m := by ring
    have hdvd : 2 ^ m ∣ 2 ^ (m + 1) := ⟨2, Nat.pow_succ ..⟩
    obtain ⟨n, hn, hmod⟩ := ih (j % 2 ^ m) (Nat.mod_lt _ (Nat.two_pow_pos m))
    generalize hy : (next (4 * b + 1) (2 * k + 1))^[n] x = y at hmod
    -- Modulo `2 ^ (m + 1)` the point `y` is `j`, or half the modulus away from it.
    by_cases hyj : y % 2 ^ (m + 1) = j
    · exact ⟨n, by omega, by rw [hy, hyj]⟩
    · refine ⟨2 ^ m + n, by omega, ?_⟩
      rw [Function.iterate_add_apply, hy, iterate_pow_mod, ← Nat.mod_add_mod, hpow]
      apply other_half
      · exact Nat.mod_lt _ (by have := Nat.two_pow_pos m; omega)
      · omega
      · rw [← hpow, Nat.mod_mod_of_dvd y hdvd, hmod]
      · rwa [← hpow]

end Akio.FullPeriod
