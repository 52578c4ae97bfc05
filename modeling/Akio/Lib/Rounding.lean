import Mathlib.Algebra.Order.Floor.Ring
import Mathlib.Data.Int.Log
import Mathlib.Tactic.Linarith

/-!
# Binary rounding

Numbers are rounded to `p` significant binary digits, to the nearest one and in the middle to the even one.
The exponent has no bounds, so this is the rounding of a binary format for the numbers that are in its range.
-/

namespace Akio.Rounding

variable {K : Type} [Field K] [LinearOrder K] [FloorRing K] {p q : Nat} {x : K}

/-! ## To an integer -/

/-- The nearest integer, and between two of them the even one. -/
def nearest (x : K) : Int :=
  if x - ⌊x⌋ < 1 / 2 then ⌊x⌋
  else if 1 / 2 < x - ⌊x⌋ then ⌊x⌋ + 1
  else if ⌊x⌋ % 2 = 0 then ⌊x⌋ else ⌊x⌋ + 1

theorem le_nearest {n : Int} (h : (n : K) ≤ x) : n ≤ nearest x := by
  have hfloor : n ≤ ⌊x⌋ := Int.le_floor.mpr h
  unfold nearest
  split_ifs <;> omega

variable [IsStrictOrderedRing K]

theorem nearest_le {n : Int} (h : x ≤ n) : nearest x ≤ n := by
  have hle : ⌊x⌋ ≤ n := Int.cast_le.mp ((Int.floor_le x).trans h)
  rcases Int.lt_or_eq_of_le hle with hlt | heq
  · unfold nearest
    split_ifs <;> omega
  · -- There is nothing behind the point.
    have hzero : x - (⌊x⌋ : K) < 1 / 2 := by
      have hx : x - (⌊x⌋ : K) ≤ 0 := by
        rw [heq]
        linarith
      linarith [half_pos (one_pos (α := K))]
    unfold nearest
    rw [if_pos hzero]
    exact hle

theorem nearest_zero : nearest (0 : K) = 0 := by
  apply Int.le_antisymm
  · exact nearest_le (by simp)
  · exact le_nearest (by simp)

/-! ## To `p` digits -/

/-- What the last of `p` digits of `x` counts. -/
def ulp (p : Nat) (x : K) : K := 2 ^ (Int.log 2 |x| + 1 - p)

def rounded (p : Nat) (x : K) : K := nearest (x / ulp p x) * ulp p x

theorem ulp_pos : 0 < ulp p x := zpow_pos two_pos _

@[simp] theorem rounded_zero : rounded p (0 : K) = 0 := by
  unfold rounded
  rw [zero_div, nearest_zero, Int.cast_zero, zero_mul]

theorem zpow_eq_mul_ulp {e : Int} (h : Int.log 2 |x| + 1 - p ≤ e) :
    (2 : K) ^ e = ((2 ^ (e - (Int.log 2 |x| + 1 - p)).toNat : Int) : K) * ulp p x := by
  unfold ulp
  rw [Int.cast_pow, Int.cast_ofNat, ← zpow_natCast, ← zpow_add₀ two_pos.ne']
  congr 1
  omega

theorem le_rounded {e : Int} (h : Int.log 2 |x| + 1 - p ≤ e) (hx : 2 ^ e ≤ x) : 2 ^ e ≤ rounded p x := by
  rw [zpow_eq_mul_ulp h] at hx ⊢
  unfold rounded
  apply mul_le_mul_of_nonneg_right _ ulp_pos.le
  exact Int.cast_le.mpr (le_nearest ((le_div_iff₀ ulp_pos).mpr hx))

theorem rounded_le {e : Int} (h : Int.log 2 |x| + 1 - p ≤ e) (hx : x ≤ 2 ^ e) : rounded p x ≤ 2 ^ e := by
  rw [zpow_eq_mul_ulp h] at hx ⊢
  unfold rounded
  apply mul_le_mul_of_nonneg_right _ ulp_pos.le
  exact Int.cast_le.mpr (nearest_le ((div_le_iff₀ ulp_pos).mpr hx))

theorem zpow_log_le (hx : 0 < x) : (2 : K) ^ Int.log 2 |x| ≤ x := by
  rw [abs_of_pos hx]
  exact_mod_cast Int.zpow_log_le_self Nat.one_lt_two hx

theorem lt_zpow_log (hx : 0 < x) : x < (2 : K) ^ (Int.log 2 |x| + 1) := by
  rw [abs_of_pos hx]
  exact_mod_cast Int.lt_zpow_succ_log_self Nat.one_lt_two x

theorem one_le_rounded (hp : 1 ≤ p) (hx : 1 ≤ x) : 1 ≤ rounded p x := by
  have hone : (1 : K) ≤ 2 ^ Int.log 2 |x| := by
    apply one_le_zpow₀ one_le_two
    rw [abs_of_pos (zero_lt_one.trans_le hx), ← Int.log_one_right (R := K) 2]
    exact Int.log_mono_right one_pos hx
  exact hone.trans (le_rounded (by omega) (zpow_log_le (zero_lt_one.trans_le hx)))

theorem rounded_pos (hp : 1 ≤ p) (hx : 0 < x) : 0 < rounded p x :=
  (zpow_pos two_pos _).trans_le (le_rounded (by omega) (zpow_log_le hx))

theorem rounded_eq_zero (hp : 1 ≤ p) : rounded p x = 0 ↔ x = 0 := by
  refine ⟨fun hzero => ?_, fun hx => by rw [hx, rounded_zero]⟩
  by_contra hne
  rcases lt_or_gt_of_ne hne with hneg | hpos
  · -- One ulp at the least is taken off.
    have hulp : ulp p x ≤ -x := by
      have hlog : (2 : K) ^ Int.log 2 |x| ≤ |x| := by
        exact_mod_cast Int.zpow_log_le_self Nat.one_lt_two (abs_pos.mpr hne)
      rw [← abs_of_neg hneg]
      exact (zpow_le_zpow_right₀ one_le_two (by omega)).trans hlog
    have hnearest : nearest (x / ulp p x) ≤ -1 := nearest_le (by
      rw [div_le_iff₀ ulp_pos, Int.cast_neg, Int.cast_one]
      linarith)
    rcases mul_eq_zero.mp hzero with hnone | hnone
    · have := Int.cast_eq_zero.mp hnone
      omega
    · exact ulp_pos.ne' hnone
  · exact (rounded_pos hp hpos).ne' hzero

/-- Below `2 ^ q` there is no number of `p` digits but those one ulp below it, or further. -/
theorem rounded_below (hp : 1 ≤ p) (hpq : p ≤ q) (hx : 0 < x) (hlt : rounded p x < 2 ^ q) :
    rounded p x ≤ 2 ^ q - 2 ^ (q - p) := by
  have hlog := le_rounded (p := p) (by omega) (zpow_log_le hx)
  have hq : Int.log 2 |x| < q := by
    apply (zpow_lt_zpow_iff_right₀ (one_lt_two (α := K))).mp
    rw [zpow_natCast]
    exact hlog.trans_lt hlt
  by_cases hlast : Int.log 2 |x| + 1 = q
  · -- One ulp is `2 ^ (q - p)`, and `2 ^ q` is a number of ulps.
    have hulp : ulp p x = 2 ^ (q - p) := by
      unfold ulp
      rw [hlast, ← zpow_natCast, Nat.cast_sub hpq]
    have htop : (2 : K) ^ q = ((2 ^ p : Int) : K) * ulp p x := by
      rw [hulp, Int.cast_pow, Int.cast_ofNat, ← pow_add, Nat.add_sub_cancel' hpq]
    have hnearest : nearest (x / ulp p x) ≤ 2 ^ p - 1 := by
      rw [htop] at hlt
      have := Int.cast_lt.mp (lt_of_mul_lt_mul_right hlt ulp_pos.le)
      omega
    calc rounded p x ≤ ((2 ^ p - 1 : Int) : K) * ulp p x :=
          mul_le_mul_of_nonneg_right (Int.cast_le.mpr hnearest) ulp_pos.le
      _ = 2 ^ q - 2 ^ (q - p) := by
          rw [Int.cast_sub, sub_mul, ← htop, Int.cast_one, one_mul, hulp]
  · -- `x` is below half of `2 ^ q`.
    have hhalf : rounded p x ≤ 2 ^ (q - 1) := by
      have hle := rounded_le (p := p) (e := Int.log 2 |x| + 1) (by omega) (lt_zpow_log hx).le
      rw [← zpow_natCast]
      exact hle.trans (zpow_le_zpow_right₀ one_le_two (by omega))
    have hpow : (2 : K) ^ (q - p) ≤ 2 ^ (q - 1) := pow_le_pow_right₀ one_le_two (by omega)
    have htwice : (2 : K) ^ q = 2 ^ (q - 1) + 2 ^ (q - 1) := by
      rw [← two_mul, ← pow_succ', Nat.sub_add_cancel (by omega)]
    linarith

end Akio.Rounding
