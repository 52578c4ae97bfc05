import Akio.Bitset.Model
import Akio.Lib.Bits
import Mathlib.Algebra.Group.Nat.Defs

/-!
# The set as a boolean array

`Holds set vals`: bit `i` of the block is entry `i` of the array, and every bit behind the array is 0.
-/

namespace Akio.Bitset

open Bits

variable {set : bitset} {vals : List Bool} {length n : ulong} {v : int}

structure Holds (set : bitset) (vals : List Bool) : Prop where
  length : set.length.toNat = vals.length
  room : set.bytes.length = (vals.length + 7) / 8
  bits : ∀ i, bit set.bytes i = vals[i]?.getD false

/-- A truth value as the functions return it. -/
def intOf (b : Bool) : int := if b then 1#32 else 0#32

/-! ## One entry -/

theorem bitOf_eq (byte : uchar) (n : ulong) : bitOf byte n = intOf (byte.getLsbD (n.toNat % 8)) := by
  unfold bitOf
  rw [BitVec.toNat_umod]
  exact shift_and_one (Nat.mod_lt _ (by decide))

theorem putBit_eq (byte : uchar) (n : ulong) (hv : v = 0#32 ∨ v = 1#32) {k : Nat} (hk : k < 8) :
    (putBit byte n v).getLsbD k = if k = n.toNat % 8 then decide (v = 1#32) else byte.getLsbD k := by
  have hmod : n.toNat % 8 < 8 := Nat.mod_lt _ (by decide)
  unfold putBit mask
  rw [BitVec.toNat_umod]
  rcases hv with rfl | rfl
  · exact getLsbD_and_mask hmod hk
  · exact getLsbD_or_mask hmod hk

theorem Holds.byteAt (h : Holds set vals) (hn : n.toNat < vals.length) :
    byteAt set n = .done (set.bytes[n.toNat / 8]?.getD 0#8) := by
  have hlt : n.toNat / 8 < set.bytes.length := by
    rw [h.room]
    omega
  unfold Bitset.byteAt
  simp [List.getElem?_eq_getElem hlt]

theorem Holds.not_gt (h : Holds set vals) (hn : n.toNat < vals.length) : ¬ n > set.length := by
  rw [gt_iff_lt, BitVec.lt_def, h.length]
  omega

theorem Holds.bitOf (h : Holds set vals) (n : ulong) :
    bitOf (set.bytes[n.toNat / 8]?.getD 0#8) n = intOf (vals[n.toNat]?.getD false) := by
  rw [bitOf_eq, ← h.bits]
  rfl

theorem bitset_get_spec (h : Holds set vals) (hn : n.toNat < vals.length) :
    bitset_get (some set) n = .done (intOf (vals[n.toNat]?.getD false)) := by
  unfold bitset_get
  simp [h.not_gt hn, h.byteAt hn, h.bitOf]

theorem bitset_set_spec (h : Holds set vals) (hn : n.toNat < vals.length) (hv : v = 0#32 ∨ v = 1#32) :
    ∃ set', bitset_set (some set) n v = .done (some set', intOf (vals[n.toNat]?.getD false)) ∧
      set'.length = set.length ∧ Holds set' (vals.set n.toNat (v = 1#32)) := by
  have hguard : ¬ (n > set.length ∨ v ≠ 0#32 ∧ v ≠ 1#32) := by
    have := h.not_gt hn
    tauto
  have hroom : n.toNat / 8 < set.bytes.length := by
    rw [h.room]
    omega
  refine ⟨{ set with
    bytes := set.bytes.set (n.toNat / 8) (putBit (set.bytes[n.toNat / 8]?.getD 0#8) n v) }, ?_, rfl, ?_⟩
  · unfold bitset_set
    simp only [if_neg hguard]
    simp [h.byteAt hn, h.bitOf]
  · refine ⟨by simp [h.length], by simp [h.room], ?_⟩
    intro i
    rw [bit_set hroom fun k hk => putBit_eq _ n hv hk, h.bits, List.getElem?_set]
    by_cases hi : n.toNat = i
    · simp [hi, hi ▸ hn]
    · simp [hi, Ne.symm hi]

/-! ## All entries -/

theorem nbytes_toNat (hlen : length.toNat + 7 < 2 ^ 64) :
    ((length + 7#64) / 8#64).toNat = (length.toNat + 7) / 8 := by
  show (length.toNat + 7) % 2 ^ 64 / 8 = _
  rw [Nat.mod_eq_of_lt hlen]

theorem mbits_toNat (hlen : length.toNat + 7 < 2 ^ 64) :
    (((length + 7#64) / 8#64 * 8#64 - length).setWidth 32).toNat = (length.toNat + 7) / 8 * 8 - length.toNat := by
  have hmul : ((length + 7#64) / 8#64 * 8#64).toNat = (length.toNat + 7) / 8 * 8 := by
    rw [BitVec.toNat_mul, nbytes_toNat hlen]
    exact Nat.mod_eq_of_lt (by simp; omega)
  rw [BitVec.toNat_setWidth, BitVec.toNat_sub_of_le, hmul]
  · omega
  · rw [BitVec.le_def, hmul]
    omega

theorem lsbmask_eq : ∀ r : Fin 7, ∃ m, lsbmask[6 - r.val]? = some m ∧
    ∀ k : Fin 8, m.getLsbD k = decide (k.val < r.val + 1) := by
  decide +kernel

theorem Holds.memset (h : Holds set vals) (hlen : vals.length + 7 < 2 ^ 64) (c : uchar) :
    memset set.bytes c ((set.length + 7#64) / 8#64) =
      .done (List.replicate ((vals.length + 7) / 8) c) := by
  have hnbytes := nbytes_toNat (h.length ▸ hlen : set.length.toNat + 7 < 2 ^ 64)
  rw [h.length] at hnbytes
  unfold Bitset.memset
  rw [hnbytes, h.room, if_pos (Nat.le_refl _), List.drop_of_length_le (Nat.le_of_eq h.room), List.append_nil]

theorem bitset_clearall_spec (h : Holds set vals) (hlen : vals.length + 7 < 2 ^ 64) :
    ∃ set', bitset_clearall (some set) = .done (some set') ∧ set'.length = set.length ∧
      Holds set' (vals.map fun _ => false) := by
  refine ⟨{ set with bytes := List.replicate ((vals.length + 7) / 8) 0#8 }, ?_, rfl, ?_⟩
  · unfold bitset_clearall
    dsimp only
    rw [h.memset hlen]
    rfl
  · refine ⟨by simp [h.length], by simp, ?_⟩
    intro i
    rw [bit_replicate]
    by_cases hi : i < vals.length <;> simp [hi]

theorem sub_one_toNat {w : Nat} {x : BitVec w} (hw : 0 < w) (hx : 0 < x.toNat) :
    (x - 1#w).toNat = x.toNat - 1 := by
  have hone : (1#w).toNat = 1 := by simp [Nat.one_mod_two_pow hw]
  rw [BitVec.toNat_sub_of_le, hone]
  rw [BitVec.le_def, hone]
  exact hx

theorem bitset_setall_spec (h : Holds set vals) (hlen : vals.length + 7 < 2 ^ 64) :
    ∃ set', bitset_setall (some set) = .done (some set') ∧ set'.length = set.length ∧
      Holds set' (vals.map fun _ => true) := by
  have hsmall : set.length.toNat + 7 < 2 ^ 64 := by rwa [h.length]
  have hmbits := mbits_toNat hsmall
  have hnbytes := nbytes_toNat hsmall
  rw [h.length] at hmbits hnbytes
  have hones : ∀ k < 8, (0xFF#8).getLsbD k = true := by decide
  unfold bitset_setall
  dsimp only
  rw [h.memset hlen, Outcome.done_bind]
  generalize ((set.length + 7#64) / 8#64 * 8#64 - set.length).setWidth 32 = mbits at hmbits ⊢
  generalize (set.length + 7#64) / 8#64 = nbytes at hnbytes ⊢
  by_cases hr : vals.length % 8 = 0
  · -- No padding: all bits of all bytes.
    have hzero : mbits = 0#32 := BitVec.eq_of_toNat_eq (by simp; omega)
    rw [if_pos hzero]
    refine ⟨_, rfl, rfl, by simp [h.length], by simp, ?_⟩
    intro i
    have hi : i < 8 * ((vals.length + 7) / 8) ↔ i < vals.length := by omega
    rw [bit_replicate, hones _ (Nat.mod_lt i (by decide))]
    by_cases hlt : i < vals.length <;> simp [hi, hlt]
  · -- The mask leaves the `vals.length % 8` low bits of the last byte.
    have hnonzero : mbits ≠ 0#32 := by
      rintro rfl
      simp at hmbits
      omega
    have hlast : (nbytes - 1#64).toNat = vals.length / 8 := by
      rw [sub_one_toNat (by decide) (by omega), hnbytes]
      omega
    have hindex : (mbits - 1#32).toNat = 6 - (vals.length % 8 - 1) := by
      rw [sub_one_toNat (by decide) (by omega), hmbits]
      omega
    obtain ⟨m, hm, hlow⟩ := lsbmask_eq ⟨vals.length % 8 - 1, by omega⟩
    have hbyte : (List.replicate ((vals.length + 7) / 8) 0xFF#8)[vals.length / 8]? = some 0xFF#8 :=
      List.getElem?_replicate_of_lt (by omega)
    rw [if_neg hnonzero, hlast, hindex, hbyte, hm]
    refine ⟨_, rfl, rfl, by simp [h.length], by simp, ?_⟩
    intro i
    rw [bit_set_byte (by simp; omega), bit_replicate, BitVec.getLsbD_and,
      hones _ (Nat.mod_lt i (by decide)), hlow ⟨i % 8, Nat.mod_lt i (by decide)⟩]
    dsimp only
    by_cases hlt : i < vals.length
    · have hlow' : i / 8 = vals.length / 8 → i % 8 < vals.length % 8 - 1 + 1 := by omega
      have hroom : i < 8 * ((vals.length + 7) / 8) := by omega
      simp [hlt, hroom]
      omega
    · have hpast : i / 8 ≠ vals.length / 8 → ¬ i < 8 * ((vals.length + 7) / 8) := by omega
      split
      · simp [hlt]
        omega
      · simp [hlt, hpast ‹_›]

/-! ## Runs -/

theorem bitset_new_eq_some {malloc_set malloc_bytes : Bool}
    (hnew : bitset_new malloc_set malloc_bytes length = some set) :
    set = { length, bytes := List.replicate ((length + 7#64) / 8#64).toNat 0#8 } := by
  unfold bitset_new at hnew
  split at hnew
  · cases hnew
  · dsimp only at hnew
    split at hnew
    · cases hnew
    · exact (Option.some.inj hnew).symm

theorem bitset_new_holds {malloc_set malloc_bytes : Bool} (hlen : length.toNat + 7 < 2 ^ 64)
    (hnew : bitset_new malloc_set malloc_bytes length = some set) :
    Holds set (List.replicate length.toNat false) := by
  obtain rfl := bitset_new_eq_some hnew
  refine ⟨by simp, by simp [nbytes_toNat hlen], ?_⟩
  intro i
  rw [bit_replicate]
  simp [List.getElem?_replicate]
  split <;> rfl

/-- One call on the set. -/
inductive Op where
  | get (n : ulong)
  | set (n : ulong) (bit : int)
  | setall
  | clearall
deriving DecidableEq

/-- The index is below the length, and a bit is 0 or 1. -/
def Op.Legal (length : ulong) : Op → Prop
  | .get n => n < length
  | .set n bit => n < length ∧ (bit = 0#32 ∨ bit = 1#32)
  | .setall | .clearall => True

instance (length : ulong) (op : Op) : Decidable (op.Legal length) := by
  cases op <;> unfold Op.Legal <;> infer_instance

def exec (set : Option bitset) : Op → Outcome (Option bitset × Option int)
  | .get n => do
    let r ← bitset_get set n
    return (set, some r)
  | .set n bit => do
    let (set, r) ← bitset_set set n bit
    return (set, some r)
  | .setall => do
    let set ← bitset_setall set
    return (set, none)
  | .clearall => do
    let set ← bitset_clearall set
    return (set, none)

/-- The calls one after the other, with what they return. -/
def execAll : Option bitset → List Op → Outcome (Option bitset × List (Option int))
  | set, [] => return (set, [])
  | set, op :: ops => do
    let (set, r) ← exec set op
    let (set, rs) ← execAll set ops
    return (set, r :: rs)

/-! ## The array -/

def edit (vals : List Bool) : Op → List Bool
  | .get _ => vals
  | .set n bit => vals.set n.toNat (bit = 1#32)
  | .setall => vals.map fun _ => true
  | .clearall => vals.map fun _ => false

/-- A get answers with the entry, and a set with the entry as it was. -/
def answer (vals : List Bool) : Op → Option int
  | .get n | .set n _ => some (intOf (vals[n.toNat]?.getD false))
  | .setall | .clearall => none

def answers : List Bool → List Op → List (Option int)
  | _, [] => []
  | vals, op :: ops => answer vals op :: answers (edit vals op) ops

@[simp] theorem edit_length (vals : List Bool) (op : Op) : (edit vals op).length = vals.length := by
  cases op <;> simp [edit]

theorem exec_spec (h : Holds set vals) (hlen : vals.length + 7 < 2 ^ 64) {op : Op}
    (hlegal : op.Legal set.length) :
    ∃ set', exec (some set) op = .done (some set', answer vals op) ∧ set'.length = set.length ∧
      Holds set' (edit vals op) := by
  have hlt : ∀ n, n < set.length → n.toNat < vals.length := by
    intro n hn
    rw [BitVec.lt_def] at hn
    rwa [← h.length]
  cases op with
  | get n =>
    refine ⟨set, ?_, rfl, h⟩
    simp [exec, bitset_get_spec h (hlt n hlegal), answer]
  | set n bit =>
    obtain ⟨set', heq, hlength, h'⟩ := bitset_set_spec h (hlt n hlegal.1) hlegal.2
    refine ⟨set', ?_, hlength, h'⟩
    simp [exec, heq, answer]
  | setall =>
    obtain ⟨set', heq, hlength, h'⟩ := bitset_setall_spec h hlen
    refine ⟨set', ?_, hlength, h'⟩
    simp [exec, heq, answer]
  | clearall =>
    obtain ⟨set', heq, hlength, h'⟩ := bitset_clearall_spec h hlen
    refine ⟨set', ?_, hlength, h'⟩
    simp [exec, heq, answer]

theorem execAll_spec (ops : List Op) (h : Holds set vals) (hlen : vals.length + 7 < 2 ^ 64)
    (hlegal : ∀ op ∈ ops, op.Legal set.length) :
    ∃ set', execAll (some set) ops = .done (some set', answers vals ops) ∧
      set'.length = set.length ∧ Holds set' (ops.foldl edit vals) := by
  induction ops generalizing set vals with
  | nil => exact ⟨set, rfl, rfl, h⟩
  | cons op ops ih =>
    obtain ⟨set₁, heq₁, hlength₁, h₁⟩ := exec_spec h hlen (hlegal op List.mem_cons_self)
    obtain ⟨set₂, heq₂, hlength₂, h₂⟩ := ih h₁ (by rwa [edit_length])
      (fun op hop => hlength₁ ▸ hlegal op (List.mem_cons_of_mem _ hop))
    refine ⟨set₂, ?_, hlength₂.trans hlength₁, h₂⟩
    simp [execAll, heq₁, heq₂, answers]

/-- From `bitset_new` on, every sequence of calls returns what the array answers, bit `i` stays entry `i`
of the array, and the padding bits of the last byte stay 0. -/
theorem bitset_refines_array {malloc_set malloc_bytes : Bool} (hlen : length.toNat + 7 < 2 ^ 64)
    (hnew : bitset_new malloc_set malloc_bytes length = some set) (ops : List Op)
    (hlegal : ∀ op ∈ ops, op.Legal length) :
    ∃ set' vals, execAll (some set) ops =
        .done (some set', answers (List.replicate length.toNat false) ops) ∧
      vals = ops.foldl edit (List.replicate length.toNat false) ∧
      set'.bytes.length = (length.toNat + 7) / 8 ∧
      (∀ i < length.toNat, vals[i]? = some (bit set'.bytes i)) ∧
      ∀ i, length.toNat ≤ i → i < 8 * set'.bytes.length → bit set'.bytes i = false := by
  have h := bitset_new_holds hlen hnew
  have hlength : set.length = length := BitVec.eq_of_toNat_eq (by simpa using h.length)
  obtain ⟨set', heq, hlength', h'⟩ := execAll_spec ops h (by simpa using hlen) (hlength ▸ hlegal)
  have hsize : (ops.foldl edit (List.replicate length.toNat false)).length = length.toNat := by
    rw [← h'.length, hlength', hlength]
  refine ⟨set', _, heq, rfl, by rw [h'.room, hsize], ?_, ?_⟩
  · intro i hi
    rw [h'.bits, List.getElem?_eq_getElem (by rw [hsize]; exact hi)]
    rfl
  · intro i hi _
    rw [h'.bits, List.getElem?_eq_none (by rw [hsize]; exact hi)]
    rfl

/-- Fill 11 entries, clear one of them and read it and its neighbour. -/
theorem bitset_refines_array_sample : ∃ set set' : bitset,
    bitset_new true true 11 = some set ∧
      execAll (some set) [.setall, .set 9 0, .get 9, .get 10] =
        .done (some set', [none, some 1, some 0, some 1]) ∧
      bit set'.bytes 9 = false ∧ bit set'.bytes 11 = false := by
  let set : bitset := { length := 11, bytes := [0, 0] }
  have hnew : bitset_new true true 11 = some set := rfl
  obtain ⟨set', vals, heq, rfl, hroom, hbits, hpad⟩ :=
    bitset_refines_array (by decide) hnew [.setall, .set 9 0, .get 9, .get 10] (by decide)
  have hpadding : 11 < 8 * set'.bytes.length := by
    rw [hroom]
    decide
  exact ⟨set, set', hnew, heq, (Option.some.inj (hbits 9 (by decide))).symm, hpad 11 (by decide) hpadding⟩

end Akio.Bitset
