import Mathlib.Data.List.Basic

/-!
# The bits of a block of bytes

Bit `i` is bit `i % 8` of byte `i / 8`. Past the end of the block every bit is 0.
-/

namespace Akio.Bits

variable {bytes : List (BitVec 8)} {byte : BitVec 8} {b : Bool} {n i k : Nat}

def bit (bytes : List (BitVec 8)) (i : Nat) : Bool := (bytes[i / 8]?.getD 0#8).getLsbD (i % 8)

theorem bitOf_getElem? (h : bytes[i / 8]? = some byte) : bit bytes i = byte.getLsbD (i % 8) := by
  unfold bit
  rw [h, Option.getD_some]

theorem bit_past (h : 8 * bytes.length ≤ i) : bit bytes i = false := by
  unfold bit
  rw [List.getElem?_eq_none (by omega)]
  simp

theorem bit_replicate : bit (List.replicate n byte) i = (decide (i < 8 * n) && byte.getLsbD (i % 8)) := by
  by_cases h : i < 8 * n
  · rw [bitOf_getElem? (List.getElem?_replicate_of_lt (by omega))]
    simp [h]
  · rw [bit_past (by simp; omega)]
    simp [h]

theorem bit_set_byte (hk : k < bytes.length) :
    bit (bytes.set k byte) i = if i / 8 = k then byte.getLsbD (i % 8) else bit bytes i := by
  by_cases hq : i / 8 = k
  · rw [bitOf_getElem? (by rw [hq, List.getElem?_set_self hk]), if_pos hq]
  · unfold bit
    rw [if_neg hq, List.getElem?_set_ne (Ne.symm hq)]

theorem bit_set (hn : n / 8 < bytes.length)
    (hbyte : ∀ k < 8, byte.getLsbD k = if k = n % 8 then b else (bytes[n / 8]?.getD 0#8).getLsbD k) :
    bit (bytes.set (n / 8) byte) i = if i = n then b else bit bytes i := by
  rw [bit_set_byte hn, hbyte _ (Nat.mod_lt i (by omega))]
  unfold bit
  by_cases hq : i / 8 = n / 8
  · have hmod : i % 8 = n % 8 ↔ i = n := by omega
    simp only [hmod, hq, if_pos]
  · have hin : i ≠ n := by
      rintro rfl
      exact hq rfl
    simp [hin, hq]

/-! ## How many bits are set -/

def weight (byte : BitVec 8) : Nat := (List.range 8).countP byte.getLsbD

/-- The bits below `n` that are set. -/
def ones (bytes : List (BitVec 8)) (n : Nat) : Nat := (List.range n).countP (bit bytes)

theorem ones_byte (h : bytes[k]? = some byte) : ones bytes (8 * (k + 1)) = ones bytes (8 * k) + weight byte := by
  have hbits : ∀ j ∈ List.range 8, bit bytes (8 * k + j) = byte.getLsbD j := by
    intro j hj
    have hlt := List.mem_range.mp hj
    have hdiv : (8 * k + j) / 8 = k := by omega
    have hmod : (8 * k + j) % 8 = j := by omega
    rw [bitOf_getElem? (hdiv.symm ▸ h), hmod]
  have hrange : List.range (8 * (k + 1)) = List.range (8 * k) ++ (List.range 8).map (8 * k + ·) := by
    rw [Nat.mul_succ, List.range_add]
  unfold ones weight
  rw [hrange, List.countP_append, List.countP_map]
  congr 1
  exact List.countP_congr fun j hj => by rw [Function.comp, hbits j hj]

theorem ones_of_zero {m : Nat} (hle : n ≤ m) (hzero : ∀ i, n ≤ i → bit bytes i = false) :
    ones bytes m = ones bytes n := by
  obtain ⟨d, rfl⟩ := Nat.exists_eq_add_of_le hle
  unfold ones
  rw [List.range_add, List.countP_append, Nat.add_eq_left, List.countP_eq_zero]
  intro i hi
  obtain ⟨j, -, rfl⟩ := List.mem_map.mp hi
  rw [hzero _ (Nat.le_add_right n j)]
  simp

theorem ones_append (hn : n ≤ 8 * bytes.length) (behind : List (BitVec 8)) :
    ones (bytes ++ behind) n = ones bytes n := by
  refine List.countP_congr fun i hi => ?_
  have hlt := List.mem_range.mp hi
  unfold bit
  rw [List.getElem?_append_left (by omega)]

/-! ## Masks of one bit -/

variable {x : BitVec 8}

theorem shift_and_one (hk : k < 8) :
    (x.setWidth 32 >>> k) &&& 1#32 = if x.getLsbD k then 1#32 else 0#32 := by
  rw [BitVec.and_one_eq_setWidth_ofBool_getLsbD]
  have hbit : (x.setWidth 32 >>> k).getLsbD 0 = x.getLsbD k := by
    simp [show k < 32 by omega]
  rw [hbit]
  cases x.getLsbD k <;> rfl

theorem getLsbD_mask (hk : k < 8) : (1#32 <<< k).getLsbD i = decide (i = k) := by
  rw [← BitVec.twoPow_eq, BitVec.getLsbD_twoPow]
  simp [show k < 32 by omega, eq_comm]

theorem getLsbD_or_mask (hk : k < 8) (hi : i < 8) :
    ((x.setWidth 32 ||| 1#32 <<< k).setWidth 8).getLsbD i = if i = k then true else x.getLsbD i := by
  rw [BitVec.getLsbD_setWidth, BitVec.getLsbD_or, getLsbD_mask hk, BitVec.getLsbD_setWidth]
  simp [hi, show i < 32 by omega, Bool.or_comm]

theorem getLsbD_and_mask (hk : k < 8) (hi : i < 8) :
    ((x.setWidth 32 &&& ~~~(1#32 <<< k)).setWidth 8).getLsbD i = if i = k then false else x.getLsbD i := by
  rw [BitVec.getLsbD_setWidth, BitVec.getLsbD_and, BitVec.getLsbD_not, getLsbD_mask hk,
    BitVec.getLsbD_setWidth]
  simp [hi, show i < 32 by omega, Bool.and_comm]

theorem and_twoPow_ne_zero {w : Nat} {x : BitVec w} (hi : i < w) :
    x &&& BitVec.twoPow w i ≠ 0#w ↔ x.getLsbD i = true := by
  rw [BitVec.and_twoPow]
  cases h : x.getLsbD i with
  | false => simp
  | true =>
    have hbit : (BitVec.twoPow w i).getLsbD i = true := by simp [hi]
    refine iff_of_true ?_ rfl
    intro heq
    rw [if_pos rfl] at heq
    simp [heq] at hbit

end Akio.Bits
