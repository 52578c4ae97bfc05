import Akio.Skiplist.Model
import Mathlib.Data.Rat.Defs
import Mathlib.Algebra.Order.Ring.Rat
import Mathlib.SetTheory.Cardinal.Finite
import Mathlib.Data.Fintype.BigOperators
import Mathlib.Logic.Equiv.Fin.Basic
import Mathlib.Algebra.Order.Field.Basic
import Mathlib.Tactic.NormNum

/-!
# `_random_level` of `skiplist.c`

What the calls of `random` return is an argument, and the loop stays `running` once that is used up.
-/

namespace Akio.Skiplist

variable {draws low rest : List Nat} {r k level : Nat}

def SKIPLIST_P : Rat := 1 / 4

/-- The loop, with what `random` returns from now on. -/
def randomLevelLoop (level : Nat) : List Nat → Outcome Nat
  | [] => .running
  | r :: draws =>
    if ((r &&& 0xFFFF : Nat) : Rat) < SKIPLIST_P * 0xFFFF then randomLevelLoop (level + 1) draws else return level

def random_level (draws : List Nat) : Outcome Nat := do
  let level ← randomLevelLoop 1 draws
  return if level < SKIPLIST_MAXLEVEL then level else SKIPLIST_MAXLEVEL

/-! ## What is drawn -/

/-- A draw after which the loop goes on. The bound is not a whole number. -/
def Low (r : Nat) : Prop := r % 65536 < 16384

instance (r : Nat) : Decidable (Low r) := by unfold Low; infer_instance

theorem low_iff : ((r &&& 0xFFFF : Nat) : Rat) < SKIPLIST_P * 0xFFFF ↔ Low r := by
  have hand : r &&& 0xFFFF = r % 65536 := Nat.and_two_pow_sub_one_eq_mod r 16
  have hbound : SKIPLIST_P * 0xFFFF = 65535 / 4 := by
    unfold SKIPLIST_P
    norm_num
  unfold Low
  rw [hand, hbound, lt_div_iff₀ (by norm_num)]
  constructor
  · intro h
    have hnat : r % 65536 * 4 < 65535 := by exact_mod_cast h
    omega
  · intro h
    have hnat : r % 65536 * 4 < 65535 := by omega
    exact_mod_cast hnat

theorem randomLevelLoop_iff {n : Nat} : randomLevelLoop level draws = .done n ↔
    ∃ low r rest, draws = low ++ r :: rest ∧ (∀ x ∈ low, Low x) ∧ ¬ Low r ∧ n = level + low.length := by
  induction draws generalizing level with
  | nil => exact ⟨nofun, by rintro ⟨low, r, rest, heq, -⟩; simp at heq⟩
  | cons x draws ih =>
    unfold randomLevelLoop
    by_cases hx : Low x
    · rw [if_pos (low_iff.mpr hx), ih]
      constructor
      · rintro ⟨low, r, rest, rfl, hlow, hr, rfl⟩
        exact ⟨x :: low, r, rest, rfl, by simpa using ⟨hx, hlow⟩, hr, by rw [List.length_cons]; omega⟩
      · rintro ⟨low, r, rest, heq, hlow, hr, rfl⟩
        rcases low with _ | ⟨y, low⟩
        · obtain ⟨rfl, -⟩ := List.cons.inj heq
          exact absurd hx hr
        · obtain ⟨rfl, rfl⟩ := List.cons.inj heq
          exact ⟨low, r, rest, rfl, fun z hz => hlow z (List.mem_cons_of_mem _ hz), hr,
            by rw [List.length_cons]; omega⟩
    · rw [if_neg (mt low_iff.mp hx)]
      constructor
      · rintro ⟨⟩
        exact ⟨[], x, draws, rfl, by simp, hx, rfl⟩
      · rintro ⟨low, r, rest, heq, hlow, hr, rfl⟩
        rcases low with _ | ⟨y, low⟩
        · rfl
        · obtain ⟨rfl, -⟩ := List.cons.inj heq
          exact absurd (hlow _ List.mem_cons_self) hx

theorem random_level_iff : random_level draws = .done level ↔
    ∃ low r rest, draws = low ++ r :: rest ∧ (∀ x ∈ low, Low x) ∧ ¬ Low r ∧
      level = min (1 + low.length) SKIPLIST_MAXLEVEL := by
  unfold random_level
  rw [Outcome.bind_eq_done]
  constructor
  · rintro ⟨n, hloop, hpure⟩
    obtain ⟨low, r, rest, heq, hlow, hr, rfl⟩ := randomLevelLoop_iff.mp hloop
    refine ⟨low, r, rest, heq, hlow, hr, ?_⟩
    rw [← Outcome.done.inj hpure]
    split_ifs <;> omega
  · rintro ⟨low, r, rest, heq, hlow, hr, rfl⟩
    refine ⟨_, randomLevelLoop_iff.mpr ⟨low, r, rest, heq, hlow, hr, rfl⟩, congrArg Outcome.done ?_⟩
    split_ifs <;> omega

/-! ## How often a level is reached -/

/-- The call gives a level above `k`, whatever comes after the draws `rs`. -/
def Exceeds (k : Nat) (rs : Fin k → Fin 65536) : Prop :=
  ∀ more level, random_level (List.ofFn (fun i => (rs i : Nat)) ++ more) = .done level → k < level

theorem exceeds_iff (hk : k < SKIPLIST_MAXLEVEL) (rs : Fin k → Fin 65536) :
    Exceeds k rs ↔ ∀ i, (rs i : Nat) < 16384 := by
  have hmem : ∀ i, Low (rs i) ↔ (rs i : Nat) < 16384 := fun i => by
    rw [Low, Nat.mod_eq_of_lt (rs i).isLt]
  have hlength : (List.ofFn fun i => (rs i : Nat)).length = k := List.length_ofFn
  constructor
  · intro hexceeds i
    by_contra hhigh
    -- the loop ends at the first high draw, and none is needed after it
    have hfound : ((List.ofFn fun i => (rs i : Nat)).find? fun x => ¬ Low x).isSome := by
      rw [List.find?_isSome]
      exact ⟨rs i, List.mem_ofFn.mpr ⟨i, rfl⟩, by simpa [hmem] using hhigh⟩
    obtain ⟨r, hr⟩ := Option.isSome_iff_exists.mp hfound
    obtain ⟨hhigh, low, rest, heq, hlow⟩ := List.find?_eq_some_iff_append.mp hr
    have hlevel := hexceeds [] _ (random_level_iff.mpr
      ⟨low, r, rest, (List.append_nil _).trans heq, by simpa using hlow, by simpa using hhigh, rfl⟩)
    rw [heq, List.length_append, List.length_cons] at hlength
    omega
  · intro hlow more level hlevel
    obtain ⟨low, r, rest, heq, -, hr, rfl⟩ := random_level_iff.mp hlevel
    have hlong : k ≤ low.length := by
      rcases List.append_eq_append_iff.mp heq with ⟨tail, rfl, -⟩ | ⟨tail, hsplit, htail⟩
      · rw [List.length_append, hlength]
        omega
      · rcases tail with _ | ⟨x, tail⟩
        · rw [List.append_nil] at hsplit
          exact (hlength.symm.trans (congrArg List.length hsplit)).le
        · obtain ⟨rfl, -⟩ := List.cons.inj htail
          have hdrawn : r ∈ List.ofFn fun i => (rs i : Nat) := hsplit ▸ by simp
          obtain ⟨i, rfl⟩ := List.mem_ofFn.mp hdrawn
          exact absurd ((hmem i).mpr (hlow i)) hr
    omega

theorem card_low : Nat.card {x : Fin 65536 // (x : Nat) < 16384} = 16384 :=
  (Nat.card_congr (Fin.castLEquiv (by omega))).symm.trans (Nat.card_fin 16384)

/-- A level is at least 1 and at the most 32. Where the low bits of the draws are uniform, a quarter of the calls that
reach a level go beyond it. -/
theorem random_level_law :
    (∀ draws level, random_level draws = .done level → 1 ≤ level ∧ level ≤ SKIPLIST_MAXLEVEL) ∧
    ∀ k < SKIPLIST_MAXLEVEL,
      Nat.card {rs : Fin k → Fin 65536 // Exceeds k rs} * 4 ^ k = Nat.card (Fin k → Fin 65536) := by
  constructor
  · intro draws level hlevel
    obtain ⟨low, r, rest, -, -, -, rfl⟩ := random_level_iff.mp hlevel
    exact ⟨by unfold SKIPLIST_MAXLEVEL; omega, Nat.min_le_right _ _⟩
  · intro k hk
    have hexceed : Nat.card {rs : Fin k → Fin 65536 // Exceeds k rs} = 16384 ^ k := by
      have hchoices : {rs : Fin k → Fin 65536 // Exceeds k rs} ≃ (Fin k → {x : Fin 65536 // (x : Nat) < 16384}) :=
        (Equiv.subtypeEquivRight fun rs => exceeds_iff hk rs).trans
          (Equiv.subtypePiEquivPi (p := fun _ (x : Fin 65536) => (x : Nat) < 16384))
      rw [Nat.card_congr hchoices, Nat.card_fun, card_low, Nat.card_fin]
    rw [hexceed, Nat.card_fun, Nat.card_fin, Nat.card_fin, ← Nat.mul_pow]

end Akio.Skiplist
