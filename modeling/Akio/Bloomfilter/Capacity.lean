import Akio.Bloomfilter.New

/-!
# The capacity

`bloomfilter_add` refuses a key once `count` is above the capacity, so one key too many is let in.
-/

namespace Akio.Bloomfilter

open Bitset

variable {malloc malloc_set malloc_bytes : Bool} {log2f : float → float} {capacity : ulong} {erate : ℚ}
  {filter filter' : bloomfilter} {ops : List Op}

/-- The add calls with a key. -/
def adds (ops : List Op) : Nat :=
  ops.countP fun
    | .add (some _) => true
    | _ => false

/-- The filter has a bit set of its size, or none. -/
structure Backed (filter : bloomfilter) : Prop where
  nbits : 1 ≤ filter.nbits.toNat
  set : filter.set = none ∨ ∃ keys, Shows filter keys

theorem Backed.add_set (hs : Backed filter) (key : List uchar) :
    ∃ set, addLoop filter.nbits (deltaOf (bloom_hash key)) filter.k.toNat filter.set (bloom_hash key) =
        .done set ∧
      Backed { filter with set, count := filter.count + 1#64 } := by
  rcases hs.set with hnone | ⟨keys, set, hset, hl⟩
  · rw [hnone]
    exact ⟨none, addLoop_none hs.nbits _ _ _, hs.nbits, Or.inl rfl⟩
  · obtain ⟨set', hloop, hl'⟩ := addLoop_spec hs.nbits hl (deltaOf (bloom_hash key)) (bloom_hash key) filter.k.toNat
    rw [hset]
    refine ⟨some set', hloop, hs.nbits, Or.inr ⟨insert key keys, set', rfl, ?_⟩⟩
    rw [Filter.lit_insert]
    exact hl'

/-! ## One call -/

theorem add_counts (hs : Backed filter) (key : List uchar) :
    ∃ filter' r, bloomfilter_add (some filter) (some key) = .done (some filter', r) ∧ Backed filter' ∧
      filter'.capacity = filter.capacity ∧
      if filter.count ≤ filter.capacity then r = 1#32 ∧ filter'.count = filter.count + 1#64
      else r = 0#32 ∧ filter' = filter := by
  unfold bloomfilter_add
  by_cases hroom : filter.count ≤ filter.capacity
  · obtain ⟨set, hloop, hs'⟩ := hs.add_set key
    refine ⟨{ filter with set, count := filter.count + 1#64 }, 1#32, ?_, hs', rfl, ?_⟩
    · simp [BitVec.not_lt.mpr hroom, hloop]
    · rw [if_pos hroom]
      exact ⟨rfl, rfl⟩
  · refine ⟨filter, 0#32, ?_, hs, rfl, ?_⟩
    · simp [BitVec.not_le.mp hroom]
    · rw [if_neg hroom]
      exact ⟨rfl, rfl⟩

theorem check_returns (hs : Backed filter) (key : List uchar) :
    ∃ r, bloomfilter_check (some filter) (some key) = .done r := by
  rcases hs.set with hnone | ⟨keys, hshows⟩
  · by_cases hk : 1 ≤ filter.k.toNat
    · exact ⟨0#32, check_without_set hs.nbits (by omega) hnone key⟩
    · refine ⟨1#32, ?_⟩
      unfold bloomfilter_check
      simp only [show filter.k.toNat = 0 by omega]
      rfl
  · obtain ⟨r, hcheck, -⟩ := bloomfilter_check_spec hs.nbits hshows key
    exact ⟨r, hcheck⟩

/-- What a call does to the number of keys. -/
inductive Counted (filter : bloomfilter) (op : Op) (filter' : bloomfilter) (r : int) : Prop where
  | taken (hadds : adds [op] = 1) (hkey : (op.accepted r).isSome) (hroom : filter.count ≤ filter.capacity)
      (hcount : filter'.count = filter.count + 1#64)
  | refused (hadds : adds [op] = 1) (hkey : op.accepted r = none) (hfull : filter.capacity < filter.count)
      (hsame : filter' = filter)
  | other (hadds : adds [op] = 0) (hkey : op.accepted r = none) (hsame : filter' = filter)

theorem exec_counts (hs : Backed filter) (op : Op) :
    ∃ filter' r, exec (some filter) op = .done (some filter', r) ∧ Backed filter' ∧
      filter'.capacity = filter.capacity ∧ Counted filter op filter' r := by
  rcases op with (_ | key) | (_ | key)
  · exact ⟨filter, 0#32, rfl, hs, rfl, .other rfl rfl rfl⟩
  · obtain ⟨filter', r, hadd, hs', hcap, hcount⟩ := add_counts hs key
    refine ⟨filter', r, hadd, hs', hcap, ?_⟩
    split_ifs at hcount with hroom
    · obtain ⟨rfl, hcount⟩ := hcount
      exact .taken rfl rfl hroom hcount
    · obtain ⟨rfl, hsame⟩ := hcount
      exact .refused rfl rfl (BitVec.not_le.mp hroom) hsame
  · exact ⟨filter, 0#32, rfl, hs, rfl, .other rfl rfl rfl⟩
  · obtain ⟨r, hcheck⟩ := check_returns hs key
    refine ⟨filter, r, ?_, hs, rfl, .other rfl rfl rfl⟩
    simp [exec, hcheck]

/-! ## Runs -/

theorem adds_cons (op : Op) (ops : List Op) : adds (op :: ops) = adds [op] + adds ops := by
  unfold adds
  rw [← List.countP_append, List.singleton_append]

theorem length_accepted_cons (op : Op) (ops : List Op) (r : int) (rs : List int) :
    (accepted (op :: ops) (r :: rs)).length =
      (if (op.accepted r).isSome then 1 else 0) + (accepted ops rs).length := by
  unfold accepted
  rw [List.zip_cons_cons, List.filterMap_cons]
  cases op.accepted r with
  | none => simp
  | some key => simp [Nat.add_comm]

theorem execAll_counts (ops : List Op) (hs : Backed filter) :
    ∃ filter' rs, execAll (some filter) ops = .done (some filter', rs) ∧ Backed filter' ∧
      filter'.capacity = filter.capacity ∧
      (filter.count.toNat + adds ops ≤ filter.capacity.toNat →
        (accepted ops rs).length = adds ops ∧ filter'.count.toNat = filter.count.toNat + adds ops) ∧
      (filter.capacity.toNat < filter.count.toNat + adds ops →
        filter.capacity.toNat < filter.count.toNat + (accepted ops rs).length) := by
  induction ops generalizing filter with
  | nil => exact ⟨filter, [], rfl, hs, rfl, fun _ => ⟨rfl, rfl⟩, fun h => h⟩
  | cons op ops ih =>
    obtain ⟨filter₁, r, hexec, hs₁, hcap₁, hcounted⟩ := exec_counts hs op
    obtain ⟨filter₂, rs, hrun, hs₂, hcap₂, hwithin, hbehind⟩ := ih hs₁
    refine ⟨filter₂, r :: rs, by simp [execAll, hexec, hrun], hs₂, hcap₂.trans hcap₁, ?_⟩
    rw [adds_cons, length_accepted_cons]
    rw [hcap₁] at hwithin hbehind
    have hlt := filter.capacity.isLt
    cases hcounted with
    | taken hadds hkey hroom hcount =>
      rw [hadds, if_pos hkey]
      have hle : filter.count.toNat ≤ filter.capacity.toNat := BitVec.le_def.mp hroom
      have hnext : filter₁.count.toNat = (filter.count.toNat + 1) % 2 ^ 64 := by
        rw [hcount, BitVec.toNat_add]
        rfl
      constructor
      · intro hall
        rw [Nat.mod_eq_of_lt (by omega)] at hnext
        have := hwithin (by omega)
        omega
      · -- The count wraps at most where the capacity is the largest number there is.
        intro hmore
        by_cases hwrap : filter.count.toNat + 1 < 2 ^ 64
        · rw [Nat.mod_eq_of_lt hwrap] at hnext
          have := hbehind (by omega)
          omega
        · omega
    | refused hadds hkey hfull hsame =>
      have hgt : filter.capacity.toNat < filter.count.toNat := BitVec.lt_def.mp hfull
      constructor <;> intro _ <;> omega
    | other hadds hkey hsame =>
      subst hsame
      rw [hadds, hkey]
      simpa using ⟨hwithin, hbehind⟩

/-! ## The limit -/

/-- No more keys than the capacity have been taken, `count` is their number, and a further add that returns 0
changes nothing. -/
structure KeepsCapacity (capacity : ulong) (ops : List Op) (rs : List int) (filter' : bloomfilter) : Prop where
  limit : (accepted ops rs).length ≤ capacity.toNat
  count : (accepted ops rs).length = filter'.count.toNat
  refused : ∀ key after, bloomfilter_add (some filter') (some key) = .done (after, 0#32) → after = some filter'

theorem Backed.refused (hs : Backed filter) {key : List uchar} {after : Option bloomfilter}
    (h : bloomfilter_add (some filter) (some key) = .done (after, 0#32)) : after = some filter := by
  obtain ⟨filter', r, hadd, -, -, hcount⟩ := add_counts hs key
  obtain ⟨rfl, rfl⟩ : some filter' = after ∧ r = 0#32 := by simpa using hadd.symm.trans h
  split_ifs at hcount
  · exact absurd hcount.1 (by decide)
  · rw [hcount.2]

theorem New.backed (hnew : New malloc_set malloc_bytes capacity filter) (hn : 1 ≤ filter.nbits.toNat) :
    Backed filter := by
  have hcap : capacity ≠ 0#64 := by
    rintro rfl
    rw [hnew.nbits_zero] at hn
    exact absurd hn (by decide)
  refine ⟨hn, ?_⟩
  by_cases hboth : malloc_set = true ∧ malloc_bytes = true
  · obtain ⟨rfl, rfl⟩ := hboth
    exact Or.inr ⟨∅, hnew.shows hcap⟩
  · left
    rw [hnew.set]
    unfold bitset_new
    cases malloc_set <;> cases malloc_bytes <;> simp at hboth ⊢

/-- From `bloomfilter_new` on, a run keeps the capacity just where it has no more adds than the capacity. -/
theorem capacity_kept_iff
    (hnew : bloomfilter_new malloc malloc_set malloc_bytes log2f capacity erate = .done (some filter))
    (hnbits : 1 ≤ filter.nbits.toNat) (ops : List Op) :
    ∃ filter' rs, execAll (some filter) ops = .done (some filter', rs) ∧
      (KeepsCapacity capacity ops rs filter' ↔ adds ops ≤ capacity.toNat) := by
  have h := new_of_done hnew
  obtain ⟨filter', rs, hrun, hs, -, hwithin, hbehind⟩ := execAll_counts ops (h.backed hnbits)
  simp only [h.capacity, h.count, BitVec.toNat_zero, Nat.zero_add] at hwithin hbehind
  refine ⟨filter', rs, hrun, ?_⟩
  constructor
  · intro hkeeps
    have hlimit := hkeeps.limit
    omega
  · intro hle
    obtain ⟨hlen, hcount⟩ := hwithin hle
    exact ⟨by omega, by omega, fun key after hadd => hs.refused hadd⟩

theorem capacity_kept_sample : ∃ filter filter' rs,
    bloomfilter_new true true true log2Floor 1#64 (1 / 8) = .done (some filter) ∧
      execAll (some filter) [.add (some [97]), .check (some [98])] = .done (some filter', rs) ∧
      KeepsCapacity 1#64 [.add (some [97]), .check (some [98])] rs filter' := by
  have hnew := new_eighth true bits_for_one
  obtain ⟨filter', rs, hrun, hiff⟩ := capacity_kept_iff hnew (by decide) [.add (some [97]), .check (some [98])]
  exact ⟨_, filter', rs, hnew, hrun, hiff.mpr (by decide)⟩

/-- A filter for one key takes two. -/
theorem capacity_exceeded : ∃ filter filter',
    bloomfilter_new true true true log2Floor 1#64 (1 / 8) = .done (some filter) ∧ 1 ≤ filter.nbits.toNat ∧
      execAll (some filter) [.add (some [97]), .add (some [98])] = .done (some filter', [1#32, 1#32]) ∧
      ¬ KeepsCapacity 1#64 [.add (some [97]), .add (some [98])] [1#32, 1#32] filter' := by
  refine ⟨_, _, new_eighth true bits_for_one, by decide, rfl, ?_⟩
  intro hkeeps
  exact absurd hkeeps.limit (by decide)

end Akio.Bloomfilter
