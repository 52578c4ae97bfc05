import Akio.Bitset.Range

/-!
# Counting the set bits

The loop of `bitset_count` also reads the byte behind the block. But for that byte it counts the bits that are
set.
-/

namespace Akio.Bitset

open Bits

variable {set set' : bitset} {vals : List Bool} {length n : ulong} {ops : List Op} {rs : List (Option int)}

/-- The indexes below the length that `bitset_get` answers 1 for. -/
def bitsSet (set : bitset) : Nat :=
  (List.range set.length.toNat).countP fun i => bitset_get (some set) (BitVec.ofNat 64 i) = .done 1#32

/-- `bitset_count` keeps to the block and returns the number of bits that are set. -/
def CountsBits (set : bitset) : Prop := bitset_count (some set) = .done (BitVec.ofNat 64 (bitsSet set))

/-- The set as `bitset_count` sees it when `byte` is behind the block. -/
def followed (set : bitset) (byte : uchar) : bitset := { set with bytes := set.bytes ++ [byte] }

/-! ## The loop -/

theorem countByte_eq : ∀ c : uchar, countByte c = .done (BitVec.ofNat 32 (weight c)) := by
  decide +kernel

theorem weight_le (c : uchar) : weight c ≤ 8 := by
  unfold weight
  exact List.countP_le_length

theorem countBytes_spec {k m : Nat} (h : k + m ≤ set.bytes.length) :
    countBytes set (BitVec.ofNat 64 (ones set.bytes (8 * k))) (List.range' k m) =
      .done (BitVec.ofNat 64 (ones set.bytes (8 * (k + m)))) := by
  induction m generalizing k with
  | zero => rfl
  | succ m ih =>
    have hget := List.getElem?_eq_getElem (show k < set.bytes.length by omega)
    have hsign : (BitVec.ofNat 32 (weight set.bytes[k])).signExtend 64 = BitVec.ofNat 64 (weight set.bytes[k]) := by
      have hle := weight_le set.bytes[k]
      rw [BitVec.signExtend_eq_setWidth_of_msb_false]
      · apply BitVec.eq_of_toNat_eq
        simp
        omega
      · rw [BitVec.msb_eq_false_iff_two_mul_lt]
        simp
        omega
    rw [List.range'_succ]
    unfold countBytes
    rw [hget, Outcome.ofOption_some, Outcome.done_bind, countByte_eq, Outcome.done_bind, hsign,
      ← BitVec.ofNat_add, ← ones_byte hget, ih (by omega)]
    congr 4
    omega

/-- Where the block has a byte more than the length needs, all its bits are counted. -/
theorem bitset_count_spec (h : set.bytes.length = ((set.length + 7#64) / 8#64).toNat + 1) :
    bitset_count (some set) = .done (BitVec.ofNat 64 (ones set.bytes (8 * set.bytes.length))) := by
  have hloop := countBytes_spec (k := 0) (show 0 + set.bytes.length ≤ set.bytes.length by omega)
  rw [Nat.zero_add] at hloop
  unfold bitset_count
  dsimp only
  rw [← h, List.range_eq_range']
  exact hloop

theorem countBytes_fault {k m : Nat} {acc : ulong} (hk : k ≤ set.bytes.length)
    (h : set.bytes.length < k + m) : countBytes set acc (List.range' k m) = .fault := by
  induction m generalizing k acc with
  | zero => omega
  | succ m ih =>
    rw [List.range'_succ]
    unfold countBytes
    rcases Nat.lt_or_eq_of_le hk with hlt | rfl
    · rw [List.getElem?_eq_getElem hlt, Outcome.ofOption_some, Outcome.done_bind, countByte_eq, Outcome.done_bind]
      exact ih hlt (by omega)
    · rw [List.getElem?_eq_none (Nat.le_refl _)]
      rfl

theorem bitset_count_fault (h : Sized set) : bitset_count (some set) = .fault := by
  unfold bitset_count
  dsimp only
  rw [List.range_eq_range']
  apply countBytes_fault (Nat.zero_le _)
  rw [h]
  omega

/-! ## What is counted -/

theorem done_int_of (b : Bool) : Outcome.done (intOf b) = .done 1#32 ↔ b = true := by
  cases b <;> simp [intOf]

theorem bitsSet_eq (set : bitset) : bitsSet set = ones set.bytes set.length.toNat := by
  refine List.countP_congr fun i hi => ?_
  have hlt := List.mem_range.mp hi
  have hi64 : (BitVec.ofNat 64 i).toNat = i := by
    have := set.length.isLt
    rw [BitVec.toNat_ofNat, Nat.mod_eq_of_lt (by omega)]
  have hgt : ¬ BitVec.ofNat 64 i > set.length := by
    rw [gt_iff_lt, BitVec.lt_def, hi64]
    omega
  rw [bitset_get_byte hgt, hi64]
  unfold bit
  cases hbyte : set.bytes[i / 8]? with
  | none => simp
  | some byte =>
    rw [Outcome.ofOption_some, Outcome.done_bind, Option.getD_some, decide_eq_true_iff, done_int_of]

theorem ones_of_run {malloc_set malloc_bytes : Bool} (hnew : bitset_new malloc_set malloc_bytes length = some set)
    (hlegal : ∀ op ∈ ops, op.Legal length) (hrun : execAll (some set) ops = .done (some set', rs)) :
    ones set'.bytes (8 * set'.bytes.length) = bitsSet set' := by
  rw [bitsSet_eq]
  obtain ⟨hlength, hsized⟩ := sized_of_run hnew hrun
  have hnbytes : set'.bytes.length = (length.toNat + 7) % 2 ^ 64 / 8 := by
    rw [hsized, hlength]
    rfl
  rw [hlength]
  by_cases hsmall : length.toNat + 7 < 2 ^ 64
  · have hholds := bitset_new_holds hsmall hnew
    obtain ⟨hlength₀, -⟩ := Sized.of_new hnew
    obtain ⟨set'', heq, -, hholds'⟩ := execAll_spec ops hholds (by simpa using hsmall) (hlength₀ ▸ hlegal)
    rw [hrun] at heq
    simp only [Outcome.done.injEq, Prod.mk.injEq, Option.some.injEq] at heq
    obtain rfl := heq.1
    have hvals := hholds'.length
    rw [hlength] at hvals
    rw [Nat.mod_eq_of_lt hsmall] at hnbytes
    apply ones_of_zero (by omega)
    intro i hi
    rw [hholds'.bits, List.getElem?_eq_none (by omega)]
    rfl
  · -- The block is empty.
    have hlt := length.isLt
    have hnil : set'.bytes = [] := by
      rw [← List.length_eq_zero_iff, hnbytes, Nat.mod_eq_sub_mod (by omega), Nat.mod_eq_of_lt (by omega)]
      omega
    rw [hnil]
    exact (ones_of_zero (Nat.zero_le _) fun i _ => by simp [bit]).symm

/-- `bitset_count` always reads past the block, and never counts right. With any byte there, it returns the number
of bits that are set and those of that byte. -/
theorem bitset_count_of_run {malloc_set malloc_bytes : Bool}
    (hnew : bitset_new malloc_set malloc_bytes length = some set) (hlegal : ∀ op ∈ ops, op.Legal length)
    (hrun : execAll (some set) ops = .done (some set', rs)) :
    ¬ CountsBits set' ∧ bitset_count (some set') = .fault ∧ ∀ byte,
      bitset_count (some (followed set' byte)) = .done (BitVec.ofNat 64 (bitsSet set' + weight byte)) := by
  obtain ⟨-, hsized⟩ := sized_of_run hnew hrun
  have hfault := bitset_count_fault hsized
  refine ⟨?_, hfault, ?_⟩
  · unfold CountsBits
    rw [hfault]
    exact nofun
  · intro byte
    have hlast : (followed set' byte).bytes[set'.bytes.length]? = some byte := by
      unfold followed
      simp
    have hlength : (followed set' byte).bytes.length = set'.bytes.length + 1 := by
      unfold followed
      simp
    rw [bitset_count_spec (by rw [hlength, hsized]; rfl), hlength, ones_byte hlast]
    unfold followed
    dsimp only
    rw [ones_append (Nat.le_refl _), ones_of_run hnew hlegal hrun]

theorem bitset_count_of_run_sample : ∃ set set' : bitset, bitset_new true true 11 = some set ∧
    execAll (some set) [.setall, .set 9 0] = .done (some set', [none, some 1]) ∧
    ¬ CountsBits set' ∧ bitset_count (some set') = .fault ∧
    ∀ byte, bitset_count (some (followed set' byte)) = .done (BitVec.ofNat 64 (bitsSet set' + weight byte)) := by
  have hnew : bitset_new true true 11 = some { length := 11, bytes := [0, 0] } := rfl
  have hrun : execAll (some { length := 11, bytes := [0, 0] }) [.setall, .set 9 0] =
    .done (some { length := 11, bytes := [0xFF, 0x05] }, [none, some 1]) := rfl
  exact ⟨_, _, hnew, hrun, bitset_count_of_run hnew (by decide) hrun⟩

/-- A new set of 8 entries has one byte, and the loop reads a second. -/
theorem bitset_count_overrun : bitset_new true true 8 = some { length := 8, bytes := [0] } ∧
    bitset_count (some { length := 8, bytes := [0] }) = .fault ∧ ¬ CountsBits { length := 8, bytes := [0] } :=
  ⟨rfl, rfl, nofun⟩

end Akio.Bitset
