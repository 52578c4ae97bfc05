import Mathlib.Data.List.Basic

/-!
# The contents of a block

A block is a function from offsets to values. `slice` reads a part of it and `fill` writes one.
-/

namespace Akio.Block

variable {α : Type} {data data' : Nat → α} {a b c n : Nat} {xs : List α}

/-- The values at the offsets `a`, .. , `b - 1`. -/
def slice (data : Nat → α) (a b : Nat) : List α := (List.range' a (b - a)).map data

/-- The block with `xs` from the offset `a` on. -/
def fill (data : Nat → α) (a : Nat) (xs : List α) (i : Nat) : α :=
  if a ≤ i then xs.getD (i - a) (data i) else data i

@[simp] theorem length_slice : (slice data a b).length = b - a := by simp [slice]

@[simp] theorem slice_self : slice data a a = [] := by simp [slice]

theorem slice_congr (h : ∀ i, a ≤ i → i < b → data' i = data i) : slice data' a b = slice data a b := by
  unfold slice
  apply List.map_congr_left
  intro i hi
  rw [List.mem_range'_1] at hi
  exact h i hi.1 (by omega)

theorem slice_append (hab : a ≤ b) (hbc : b ≤ c) : slice data a b ++ slice data b c = slice data a c := by
  unfold slice
  rw [← List.map_append]
  congr 1
  have h := List.range'_append_1 (s := a) (m := b - a) (n := c - b)
  rw [show a + (b - a) = b by omega, show b - a + (c - b) = c - a by omega] at h
  exact h

theorem drop_slice : (slice data a b).drop n = slice data (a + n) b := by
  unfold slice
  rw [← List.map_drop, List.drop_range', Nat.mul_one, Nat.sub_sub]

theorem slice_fill_before (hab : b ≤ c) : slice (fill data c xs) a b = slice data a b := by
  apply slice_congr
  intro i _ hi
  unfold fill
  rw [if_neg (by omega)]

theorem slice_fill : slice (fill data a xs) a (a + xs.length) = xs := by
  apply List.ext_getElem
  · simp
  · intro i _ hi
    unfold slice fill
    simp [hi]

theorem slice_extend (hab : a ≤ b) : slice (fill data b xs) a (b + xs.length) = slice data a b ++ xs := by
  rw [← slice_append hab (Nat.le_add_right b xs.length), slice_fill, slice_fill_before (Nat.le_refl b)]

end Akio.Block
