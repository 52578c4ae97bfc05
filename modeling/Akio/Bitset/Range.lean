import Akio.Bitset.Refine

/-!
# Indexes out of range

The guard of `bitset_get` and `bitset_set` lets the index `length` through, which is a padding bit or past the
block. Where `length + 7` wraps around, the block is empty and no index below `length` is in it.
-/

namespace Akio.Bitset

open Bits

variable {set set' : bitset} {length n : ulong} {v : int} {ops : List Op} {op : Op} {rs : List (Option int)}
  {r : Option int} {s : Option bitset} {w : int}

/-- The block is as large as `bitset_new` makes it for the length. -/
def Sized (set : bitset) : Prop := set.bytes.length = ((set.length + 7#64) / 8#64).toNat

/-- Both functions keep to the block, and where the index is out of range they return 0 and change nothing. -/
def Guarded (set : bitset) (n : ulong) : Prop :=
  (∃ r, bitset_get (some set) n = .done r ∧ (set.length ≤ n → r = 0#32)) ∧
    ∀ bit, ∃ set' r, bitset_set (some set) n bit = .done (some set', r) ∧
      (set.length ≤ n → r = 0#32 ∧ set' = set)

/-! ## One call -/

theorem byteAt_eq (set : bitset) (n : ulong) : byteAt set n = Outcome.ofOption set.bytes[n.toNat / 8]? := rfl

theorem bitset_get_past (h : n > set.length) : bitset_get (some set) n = .done 0#32 := by
  unfold bitset_get
  simp [h]

theorem bitset_set_past (h : n > set.length) : bitset_set (some set) n v = .done (some set, 0#32) := by
  unfold bitset_set
  simp [h]

theorem bitset_get_byte (h : ¬ n > set.length) : bitset_get (some set) n =
    (Outcome.ofOption set.bytes[n.toNat / 8]? >>= fun byte => .done (intOf (byte.getLsbD (n.toNat % 8)))) := by
  unfold bitset_get
  simp only [if_neg h, byteAt_eq, bitOf_eq]
  rfl

theorem bitset_set_byte (h : ¬ n > set.length) (hv : v = 0#32 ∨ v = 1#32) : bitset_set (some set) n v =
    (Outcome.ofOption set.bytes[n.toNat / 8]? >>= fun byte =>
      .done (some { set with bytes := set.bytes.set (n.toNat / 8) (putBit byte n v) },
        intOf (byte.getLsbD (n.toNat % 8)))) := by
  have hguard : ¬ (n > set.length ∨ v ≠ 0#32 ∧ v ≠ 1#32) := by tauto
  unfold bitset_set
  simp only [if_neg hguard, byteAt_eq, bitOf_eq]
  rfl

theorem bitset_set_other (hv : ¬ (v = 0#32 ∨ v = 1#32)) : bitset_set (some set) n v = .done (some set, 0#32) := by
  have hguard : n > set.length ∨ v ≠ 0#32 ∧ v ≠ 1#32 := by tauto
  unfold bitset_set
  simp only [if_pos hguard]
  rfl

theorem Sized.lt_iff (h : Sized set) (hn : n ≤ set.length) :
    n.toNat / 8 < set.bytes.length ↔
      set.length.toNat + 7 < 2 ^ 64 ∧ (n < set.length ∨ ¬ set.length.toNat % 8 = 0) := by
  have hlt := set.length.isLt
  have hnbytes : ((set.length + 7#64) / 8#64).toNat = (set.length.toNat + 7) % 2 ^ 64 / 8 := rfl
  rw [BitVec.le_def] at hn
  rw [h, hnbytes, BitVec.lt_def]
  by_cases hwrap : set.length.toNat + 7 < 2 ^ 64
  · rw [Nat.mod_eq_of_lt hwrap]
    omega
  · have hmod : (set.length.toNat + 7) % 2 ^ 64 = set.length.toNat + 7 - 2 ^ 64 := by
      rw [Nat.mod_eq_sub_mod (by omega), Nat.mod_eq_of_lt (by omega)]
    rw [hmod]
    omega

theorem not_guarded_length : ¬ Guarded set set.length := by
  rintro ⟨-, hset⟩
  obtain ⟨set', r, hdone, hkept⟩ := hset 1#32
  obtain ⟨rfl, rfl⟩ := hkept (BitVec.le_refl _)
  rw [bitset_set_byte (BitVec.lt_irrefl _) (Or.inr rfl)] at hdone
  obtain ⟨byte, hbyte, hdone⟩ := Outcome.bind_eq_done.mp hdone
  have hget := Outcome.ofOption_eq_done.mp hbyte
  simp only [Outcome.done.injEq, Prod.mk.injEq, Option.some.injEq] at hdone
  obtain ⟨hsame, hzero⟩ := hdone
  have hclear : byte.getLsbD (set'.length.toNat % 8) = false := by
    cases hbit : byte.getLsbD (set'.length.toNat % 8) with
    | false => rfl
    | true =>
      rw [hbit] at hzero
      cases hzero
  have hput : putBit byte set'.length 1#32 = byte := by
    have hget' := List.getElem?_set_self (a := putBit byte set'.length 1#32)
      (List.getElem?_eq_some_iff.mp hget).1
    have hbytes : set'.bytes.set (set'.length.toNat / 8) (putBit byte set'.length 1#32) = set'.bytes :=
      congrArg bitset.bytes hsame
    rw [hbytes, hget] at hget'
    exact (Option.some.inj hget').symm
  have hbit := putBit_eq byte set'.length (Or.inr rfl) (Nat.mod_lt set'.length.toNat (show 0 < 8 by decide))
  rw [hput, hclear] at hbit
  simp at hbit

theorem guarded_iff (h : Sized set) :
    Guarded set n ↔ n > set.length ∨ n < set.length ∧ set.length.toNat + 7 < 2 ^ 64 := by
  constructor
  · intro hguarded
    by_cases hgt : n > set.length
    · exact Or.inl hgt
    · have hle : n ≤ set.length := BitVec.not_lt.mp hgt
      have hne : n ≠ set.length := by
        rintro rfl
        exact not_guarded_length hguarded
      obtain ⟨⟨r, hget, -⟩, -⟩ := hguarded
      rw [bitset_get_byte hgt] at hget
      obtain ⟨byte, hbyte, -⟩ := Outcome.bind_eq_done.mp hget
      have hroom := (List.getElem?_eq_some_iff.mp (Outcome.ofOption_eq_done.mp hbyte)).1
      exact Or.inr ⟨by bv_omega, ((h.lt_iff hle).mp hroom).1⟩
  · rintro (hgt | ⟨hlt, hsmall⟩)
    · exact ⟨⟨_, bitset_get_past hgt, fun _ => rfl⟩, fun bit => ⟨_, _, bitset_set_past hgt, fun _ => ⟨rfl, rfl⟩⟩⟩
    · have hle : n ≤ set.length := BitVec.le_of_lt hlt
      have hgt : ¬ n > set.length := BitVec.not_lt.mpr hle
      have hbyte := List.getElem?_eq_getElem ((h.lt_iff hle).mpr ⟨hsmall, Or.inl hlt⟩)
      have hin : ¬ set.length ≤ n := BitVec.not_le.mpr hlt
      refine ⟨⟨_, by rw [bitset_get_byte hgt, hbyte]; rfl, fun hout => absurd hout hin⟩, fun bit => ?_⟩
      by_cases hbit : bit = 0#32 ∨ bit = 1#32
      · exact ⟨_, _, by rw [bitset_set_byte hgt hbit, hbyte]; rfl, fun hout => absurd hout hin⟩
      · exact ⟨_, _, bitset_set_other hbit, fun hout => absurd hout hin⟩

/-! ## Runs -/

theorem memset_length {bytes bytes' : List uchar} {c : uchar} {nbytes : ulong}
    (h : memset bytes c nbytes = .done bytes') : bytes'.length = bytes.length := by
  unfold memset at h
  by_cases hroom : nbytes.toNat ≤ bytes.length
  · rw [if_pos hroom] at h
    obtain rfl := Outcome.done.inj h
    simp
    omega
  · rw [if_neg hroom] at h
    cases h

/-- The set as it was, but for what the bytes are. -/
def Alike (set set' : bitset) : Prop := set'.length = set.length ∧ set'.bytes.length = set.bytes.length

theorem bitset_set_alike (h : bitset_set (some set) n v = .done (s, w)) : ∃ set', s = some set' ∧ Alike set set' := by
  by_cases hv : v = 0#32 ∨ v = 1#32
  · by_cases hgt : n > set.length
    · rw [bitset_set_past hgt] at h
      cases h
      exact ⟨set, rfl, rfl, rfl⟩
    · rw [bitset_set_byte hgt hv] at h
      obtain ⟨byte, -, h⟩ := Outcome.bind_eq_done.mp h
      cases h
      exact ⟨_, rfl, rfl, List.length_set⟩
  · rw [bitset_set_other hv] at h
    cases h
    exact ⟨set, rfl, rfl, rfl⟩

theorem bitset_setall_alike (h : bitset_setall (some set) = .done s) : ∃ set', s = some set' ∧ Alike set set' := by
  unfold bitset_setall at h
  dsimp only at h
  obtain ⟨bytes, hbytes, h⟩ := Outcome.bind_eq_done.mp h
  have hlength := memset_length hbytes
  split at h
  · cases h
    exact ⟨_, rfl, rfl, hlength⟩
  · obtain ⟨byte, -, h⟩ := Outcome.bind_eq_done.mp h
    obtain ⟨m, -, h⟩ := Outcome.bind_eq_done.mp h
    cases h
    exact ⟨_, rfl, rfl, List.length_set.trans hlength⟩

theorem bitset_clearall_alike (h : bitset_clearall (some set) = .done s) : ∃ set', s = some set' ∧ Alike set set' := by
  unfold bitset_clearall at h
  dsimp only at h
  obtain ⟨bytes, hbytes, h⟩ := Outcome.bind_eq_done.mp h
  cases h
  exact ⟨_, rfl, rfl, memset_length hbytes⟩

theorem exec_alike (h : exec (some set) op = .done (s, r)) : ∃ set', s = some set' ∧ Alike set set' := by
  cases op with
  | get n =>
    obtain ⟨b, -, h⟩ := Outcome.bind_eq_done.mp h
    cases h
    exact ⟨set, rfl, rfl, rfl⟩
  | set n bit =>
    obtain ⟨⟨s', b⟩, hset, h⟩ := Outcome.bind_eq_done.mp h
    cases h
    exact bitset_set_alike hset
  | setall =>
    obtain ⟨s', hset, h⟩ := Outcome.bind_eq_done.mp h
    cases h
    exact bitset_setall_alike hset
  | clearall =>
    obtain ⟨s', hset, h⟩ := Outcome.bind_eq_done.mp h
    cases h
    exact bitset_clearall_alike hset

theorem execAll_alike (h : execAll (some set) ops = .done (s, rs)) : ∃ set', s = some set' ∧ Alike set set' := by
  induction ops generalizing set s rs with
  | nil =>
    cases h
    exact ⟨set, rfl, rfl, rfl⟩
  | cons op ops ih =>
    obtain ⟨⟨s₁, r₁⟩, hexec, h⟩ := Outcome.bind_eq_done.mp h
    obtain ⟨⟨s₂, rs₂⟩, hall, h⟩ := Outcome.bind_eq_done.mp h
    cases h
    obtain ⟨set₁, rfl, hlength₁, hbytes₁⟩ := exec_alike hexec
    obtain ⟨set₂, rfl, hlength₂, hbytes₂⟩ := ih hall
    exact ⟨set₂, rfl, hlength₂.trans hlength₁, hbytes₂.trans hbytes₁⟩

theorem Sized.of_new {malloc_set malloc_bytes : Bool}
    (hnew : bitset_new malloc_set malloc_bytes length = some set) : set.length = length ∧ Sized set := by
  obtain rfl := bitset_new_eq_some hnew
  exact ⟨rfl, List.length_replicate⟩

theorem sized_of_run {malloc_set malloc_bytes : Bool} (hnew : bitset_new malloc_set malloc_bytes length = some set)
    (hrun : execAll (some set) ops = .done (some set', rs)) : set'.length = length ∧ Sized set' := by
  obtain ⟨hlength, hsized⟩ := Sized.of_new hnew
  obtain ⟨set'', heq, hlength', hbytes'⟩ := execAll_alike hrun
  obtain rfl := Option.some.inj heq
  refine ⟨hlength'.trans hlength, ?_⟩
  unfold Sized
  rw [hbytes', hsized, hlength']

/-- After every sequence of calls that returned, an index is safe exactly when it is past the length, or below
a length that does not wrap around. -/
theorem guarded_of_run {malloc_set malloc_bytes : Bool}
    (hnew : bitset_new malloc_set malloc_bytes length = some set)
    (hrun : execAll (some set) ops = .done (some set', rs)) (n : ulong) :
    Guarded set' n ↔ n > length ∨ n < length ∧ length.toNat + 7 < 2 ^ 64 := by
  obtain ⟨rfl, hsized⟩ := sized_of_run hnew hrun
  exact guarded_iff hsized

/-- All bits on but bit 2: index 12 is refused, and index 11 is let through to a padding bit. -/
theorem guarded_of_run_sample :
    execAll (some { length := 11, bytes := [0, 0] }) [.setall, .set 2 0] =
      .done (some { length := 11, bytes := [0xfb, 0x07] }, [none, some 1]) ∧
    Guarded { length := 11, bytes := [0xfb, 0x07] } 12 ∧ Guarded { length := 11, bytes := [0xfb, 0x07] } 10 ∧
      ¬ Guarded { length := 11, bytes := [0xfb, 0x07] } 11 := by
  have hnew : bitset_new true true 11 = some { length := 11, bytes := [0, 0] } := rfl
  have hrun : execAll (some { length := 11, bytes := [0, 0] }) [.setall, .set 2 0] =
      .done (some { length := 11, bytes := [0xfb, 0x07] }, [none, some 1]) := rfl
  have hguarded := guarded_of_run hnew hrun
  exact ⟨hrun, (hguarded 12).mpr (by decide), (hguarded 10).mpr (by decide),
    fun h => absurd ((hguarded 11).mp h) (by decide)⟩

/-- With 4 entries, a set of entry 4 changes a padding bit. With 8 there is no byte for entry 8. -/
theorem length_let_through :
    bitset_set (some { length := 4, bytes := [0] }) 4 1 = .done (some { length := 4, bytes := [0x10] }, 0) ∧
    bitset_new true true 8 = some { length := 8, bytes := [0] } ∧
    bitset_get (some { length := 8, bytes := [0] }) 8 = .fault ∧
    ¬ Guarded { length := 8, bytes := [0] } 8 :=
  ⟨rfl, rfl, rfl, not_guarded_length⟩

end Akio.Bitset
