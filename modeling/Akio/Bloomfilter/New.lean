import Akio.Bloomfilter.Refine
import Akio.Lib.Rounding
import Mathlib.Algebra.Order.Floor.Semiring
import Mathlib.Data.Rat.Floor
import Mathlib.Tactic.NormNum

/-!
# `bloomfilter_new`

A `float` has 24 digits and a `double` has 53, and no number here is too large for its type but for
`1.0 / erate`, which can be infinite as a `float`. `log2f` of the math library is an argument.
-/

namespace Akio.Bloomfilter

open Bitset Rounding Akio.Filter

def toFloat (x : ℚ) : ℚ := rounded 24 x
def toDouble (x : ℚ) : ℚ := rounded 53 x

/-- A number, or infinity. -/
abbrev float := Option ℚ

/-- `1.0 / erate` as a `float`. -/
def inverse (erate : ℚ) : float :=
  let x := toFloat (toDouble (1 / erate))
  if x < 2 ^ 128 then some x else none

/-- `ceilf` and the conversion to `int`, which is undefined where the number does not fit. -/
def toCInt : float → Outcome Int
  | some x => if -2 ^ 31 ≤ ⌈x⌉ ∧ ⌈x⌉ < 2 ^ 31 then .done ⌈x⌉ else .fault
  | none => .fault

/-- `filter->k` -/
def nprobes (log2f : float → float) (erate : ℚ) : Outcome Int := do
  let k ← toCInt (log2f (inverse erate))
  let k := if k < 1 then 1 else k
  return if k > 30 then 30 else k

/-- `ceilf((filter->k / 0.69))` -/
def bitsPerKey (k : Int) : Int := ⌈toFloat (toDouble (k / toDouble (69 / 100)))⌉

/-- `capacity * ceilf((filter->k / 0.69))`, which is a `float`. -/
def scaledBits (capacity : ulong) (k : Int) : ℚ := toFloat (toFloat capacity.toNat * bitsPerKey k)

/-- The conversion of a `float` to `unsigned long`. It is undefined where the number does not fit. -/
def toUlong (x : ℚ) : Outcome ulong := if x < 2 ^ 64 then .done (BitVec.ofNat 64 ⌊x⌋₊) else .fault

/-- The three `malloc` say whether the filter, the bit set and its bytes can be allocated. -/
def bloomfilter_new (malloc malloc_set malloc_bytes : Bool) (log2f : float → float) (capacity : ulong) (erate : ℚ) :
    Outcome (Option bloomfilter) := do
  if erate ≤ 0 ∨ erate ≥ 1 then return none
  if !malloc then return none
  let k ← nprobes log2f erate
  let nbits ← toUlong (scaledBits capacity k)
  return some { k, capacity, nbits, count := 0, set := bitset_new malloc_set malloc_bytes nbits }

/-- The logarithm of a finite number from 1 on is that of its type, and that of infinity is infinite. -/
structure Log2 (log2f : float → float) : Prop where
  finite : ∀ x, 1 ≤ x → x < 2 ^ 128 → ∃ y, log2f (some x) = some y ∧ 0 ≤ y ∧ y ≤ 128
  infinite : log2f none = none

variable {malloc malloc_set malloc_bytes : Bool} {log2f : float → float} {capacity nbits : ulong} {erate x : ℚ}
  {filter filter' : bloomfilter} {k : Int}

/-! ## The number of probes -/

theorem one_le_inverse (hpos : 0 < erate) (hlt : erate < 1) : 1 ≤ toFloat (toDouble (1 / erate)) := by
  have hone : 1 ≤ 1 / erate := one_le_one_div hpos hlt.le
  exact one_le_rounded (by omega) (one_le_rounded (by omega) hone)

theorem nprobes_pos (h : nprobes log2f erate = .done k) : 1 ≤ k := by
  obtain ⟨k', -, h⟩ := Outcome.bind_eq_done.mp h
  rw [← Outcome.done.inj h]
  split_ifs <;> omega

theorem nprobes_done_iff (hlog : Log2 log2f) (hpos : 0 < erate) (hlt : erate < 1) :
    (∃ k, nprobes log2f erate = .done k) ↔ toFloat (toDouble (1 / erate)) < 2 ^ 128 := by
  unfold nprobes inverse
  dsimp only
  constructor
  · rintro ⟨k, h⟩
    by_contra hinf
    rw [if_neg hinf, hlog.infinite] at h
    cases h
  · intro hfits
    obtain ⟨y, hy, hzero, hle⟩ := hlog.finite _ (one_le_inverse hpos hlt) hfits
    have hlow : 0 ≤ ⌈y⌉ := Int.ceil_nonneg hzero
    have hhigh : ⌈y⌉ ≤ 128 := Int.ceil_le.mpr (by exact_mod_cast hle)
    have hint : toCInt (some y) = .done ⌈y⌉ := if_pos ⟨by omega, by omega⟩
    rw [if_pos hfits, hy, hint]
    exact ⟨_, rfl⟩

/-! ## The number of bits -/

theorem bitsPerKey_pos (hk : 1 ≤ k) : 1 ≤ bitsPerKey k := by
  have hk' : (0 : ℚ) < k := by exact_mod_cast hk
  have hdivisor : 0 < toDouble (69 / 100) := rounded_pos (by omega) (by norm_num)
  have hquot : 0 < toDouble (k / toDouble (69 / 100)) := rounded_pos (by omega) (div_pos hk' hdivisor)
  exact Int.one_le_ceil_iff.mpr (rounded_pos (by omega) hquot)

theorem one_le_product (hk : 1 ≤ k) (hcap : capacity ≠ 0#64) :
    1 ≤ toFloat capacity.toNat * bitsPerKey k := by
  have hpos : 1 ≤ capacity.toNat := by
    apply Nat.one_le_iff_ne_zero.mpr
    exact fun hzero => hcap (BitVec.eq_of_toNat_eq hzero)
  have hfloat : 1 ≤ toFloat capacity.toNat := one_le_rounded (by omega) (by exact_mod_cast hpos)
  have hbits : (1 : ℚ) ≤ bitsPerKey k := by exact_mod_cast bitsPerKey_pos hk
  exact one_le_mul_of_one_le_of_one_le hfloat hbits

theorem scaledBits_zero : scaledBits 0#64 k = 0 := by
  unfold scaledBits toFloat
  simp

theorem toUlong_done (h : toUlong x = .done nbits) : x < 2 ^ 64 ∧ nbits = BitVec.ofNat 64 ⌊x⌋₊ := by
  unfold toUlong at h
  split_ifs at h with hlt
  exact ⟨hlt, (Outcome.done.inj h).symm⟩

theorem toUlong_toNat (hx : 0 ≤ x) (h : toUlong x = .done nbits) : nbits.toNat = ⌊x⌋₊ := by
  obtain ⟨hlt, rfl⟩ := toUlong_done h
  rw [BitVec.toNat_ofNat]
  apply Nat.mod_eq_of_lt
  rw [Nat.floor_lt hx]
  exact_mod_cast hlt

/-- The number of bits is 0 for the capacity 0 only. It has 24 digits, so 7 more do not make it wrap. -/
theorem nbits_bounds (hk : 1 ≤ k) (hcap : capacity ≠ 0#64) (h : toUlong (scaledBits capacity k) = .done nbits) :
    1 ≤ nbits.toNat ∧ nbits.toNat + 7 < 2 ^ 64 := by
  have hproduct := one_le_product hk hcap
  have hone : 1 ≤ scaledBits capacity k := one_le_rounded (by omega) hproduct
  have hnbits := toUlong_toNat (zero_le_one.trans hone) h
  refine ⟨by rw [hnbits]; exact Nat.le_floor (by exact_mod_cast hone), ?_⟩
  have hbelow : scaledBits capacity k ≤ 2 ^ 64 - 2 ^ (64 - 24) :=
    rounded_below (by omega) (by omega) (zero_lt_one.trans_le hproduct) (toUlong_done h).1
  have hfloor : ⌊scaledBits capacity k⌋₊ ≤ 2 ^ 64 - 2 ^ 40 := by
    apply Nat.floor_le_of_le
    norm_num at hbelow ⊢
    exact hbelow
  omega

/-! ## The filters it hands out -/

/-- What `bloomfilter_new` has put into a filter. -/
structure New (malloc_set malloc_bytes : Bool) (capacity : ulong) (filter : bloomfilter) : Prop where
  k : 1 ≤ filter.k
  nbits : toUlong (scaledBits capacity filter.k) = .done filter.nbits
  set : filter.set = bitset_new malloc_set malloc_bytes filter.nbits
  capacity : filter.capacity = capacity
  count : filter.count = 0#64

theorem new_of_done (hnew : bloomfilter_new malloc malloc_set malloc_bytes log2f capacity erate = .done (some filter)) :
    New malloc_set malloc_bytes capacity filter := by
  unfold bloomfilter_new at hnew
  split_ifs at hnew with hrate hmalloc
  · cases hnew
  · cases hnew
  · obtain ⟨k, hk, hnew⟩ := Outcome.bind_eq_done.mp hnew
    obtain ⟨nbits, hnbits, hfilter⟩ := Outcome.bind_eq_done.mp hnew
    obtain rfl := Option.some.inj (Outcome.done.inj hfilter)
    exact ⟨nprobes_pos hk, hnbits, rfl, rfl, rfl⟩

theorem new_done (hpos : 0 < erate) (hlt : erate < 1) (hk : nprobes log2f erate = .done k)
    (hfits : scaledBits capacity k < 2 ^ 64) :
    ∃ filter, bloomfilter_new true malloc_set malloc_bytes log2f capacity erate = .done (some filter) := by
  unfold bloomfilter_new
  rw [if_neg (not_or.mpr ⟨hpos.not_ge, hlt.not_ge⟩), if_neg (by decide), hk, Outcome.done_bind, toUlong,
    if_pos hfits]
  exact ⟨_, rfl⟩

theorem New.nbits_pos (hnew : New malloc_set malloc_bytes capacity filter) (hcap : capacity ≠ 0#64) :
    1 ≤ filter.nbits.toNat := (nbits_bounds hnew.k hcap hnew.nbits).1

theorem New.nbits_zero (hnew : New malloc_set malloc_bytes 0#64 filter) : filter.nbits = 0#64 := by
  have hnbits := hnew.nbits
  rw [scaledBits_zero] at hnbits
  rw [(toUlong_done hnbits).2, Nat.floor_zero]

theorem New.shows (hnew : New true true capacity filter) (hcap : capacity ≠ 0#64) : Shows filter ∅ := by
  have hset : bitset_new true true filter.nbits = some
      { length := filter.nbits, bytes := List.replicate ((filter.nbits + 7#64) / 8#64).toNat 0#8 } := rfl
  exact shows_of_clear (hnew.set.trans hset)
    (bitset_new_holds (nbits_bounds hnew.k hcap hnew.nbits).2 hset)

/-! ## Without a bit set -/

theorem addLoop_none (hn : 1 ≤ nbits.toNat) (delta h : uint32_t) (k : Nat) :
    addLoop nbits delta k none h = .done none := by
  induction k generalizing h with
  | zero => rfl
  | succ k ih =>
    obtain ⟨pos, hpos, -⟩ := bitpos_spec hn h delta
    unfold addLoop
    rw [hpos]
    exact ih (h + delta)

theorem checkLoop_none (hn : 1 ≤ nbits.toNat) (delta h : uint32_t) {k : Nat} (hk : 1 ≤ k) :
    checkLoop nbits delta none k h = .done 0#32 := by
  obtain ⟨k, rfl⟩ : ∃ j, k = j + 1 := ⟨k - 1, by omega⟩
  obtain ⟨pos, hpos, -⟩ := bitpos_spec hn h delta
  unfold checkLoop
  rw [hpos]
  rfl

theorem add_without_set (hnew : New malloc_set malloc_bytes capacity filter) (hcap : capacity ≠ 0#64)
    (hset : filter.set = none) (key : List uchar) :
    bloomfilter_add (some filter) (some key) = .done (some { filter with count := 1#64 }, 1#32) := by
  unfold bloomfilter_add
  simp [hset, addLoop_none (hnew.nbits_pos hcap), hnew.count]

theorem check_without_set (hn : 1 ≤ filter.nbits.toNat) (hk : 1 ≤ filter.k) (hset : filter.set = none)
    (key : List uchar) : bloomfilter_check (some filter) (some key) = .done 0#32 := by
  unfold bloomfilter_check
  simp [hset, checkLoop_none hn (deltaOf (bloom_hash key)) (bloom_hash key) (show 1 ≤ filter.k.toNat by omega)]

/-! ## Usable filters -/

/-- No call divides by zero, and no key whose add returned 1 is missed. -/
def Usable (filter : bloomfilter) : Prop :=
  ∀ ops, ∃ filter' rs, execAll (some filter) ops = .done (some filter', rs) ∧ filter'.nbits ≠ 0#64 ∧
    ∀ key ∈ accepted ops rs, bloomfilter_check (some filter') (some key) = .done 1#32

theorem New.usable (hnew : New true true capacity filter) (hcap : capacity ≠ 0#64) : Usable filter := by
  intro ops
  have hn := hnew.nbits_pos hcap
  obtain ⟨filter', rs, hrun, hk, hbits, hs⟩ := execAll_spec ops hn (hnew.shows hcap)
  have hn' : 1 ≤ filter'.nbits.toNat := by rwa [hbits]
  refine ⟨filter', rs, hrun, ?_, ?_⟩
  · intro hzero
    rw [hzero] at hn'
    exact absurd hn' (by decide)
  · intro key hkey
    exact (check_eq_one hn' hs key).mpr (reports_of_mem (Or.inr hkey))

theorem Usable.nbits_ne (h : Usable filter) : filter.nbits ≠ 0#64 := by
  obtain ⟨filter', rs, hrun, hne, -⟩ := h []
  obtain ⟨rfl, -⟩ : filter = filter' ∧ [] = rs := by simpa [execAll] using hrun
  exact hne

theorem New.not_usable (hnew : New malloc_set malloc_bytes capacity filter) (hcap : capacity ≠ 0#64)
    (hset : filter.set = none) : ¬ Usable filter := by
  intro h
  obtain ⟨filter', rs, hrun, -, hreport⟩ := h [.add (some [])]
  have hadd := add_without_set hnew hcap hset []
  obtain ⟨rfl, rfl⟩ : { filter with count := 1#64 } = filter' ∧ [1#32] = rs := by
    simpa [execAll, exec, hadd] using hrun
  have hmiss : bloomfilter_check (some { filter with count := 1#64 }) (some []) = .done 0#32 :=
    check_without_set (hnew.nbits_pos hcap) hnew.k hset []
  have hfound := hreport [] (by simp [accepted, Op.accepted])
  rw [hmiss] at hfound
  exact absurd (Outcome.done.inj hfound) (by decide)

theorem usable_iff (hnew : bloomfilter_new malloc malloc_set malloc_bytes log2f capacity erate = .done (some filter)) :
    Usable filter ↔ capacity ≠ 0#64 ∧ malloc_set = true ∧ malloc_bytes = true := by
  have h := new_of_done hnew
  constructor
  · intro husable
    have hcap : capacity ≠ 0#64 := by
      rintro rfl
      exact husable.nbits_ne h.nbits_zero
    refine ⟨hcap, ?_⟩
    have hsome : filter.set ≠ none := fun hnone => h.not_usable hcap hnone husable
    rw [h.set] at hsome
    unfold bitset_new at hsome
    cases malloc_set <;> cases malloc_bytes <;> simp at hsome ⊢
  · rintro ⟨hcap, rfl, rfl⟩
    exact h.usable hcap

/-- Nothing undefined is done, and a filter that is handed out is usable. -/
def HandsOutUsable (malloc malloc_set malloc_bytes : Bool) (log2f : float → float) (capacity : ulong) (erate : ℚ) :
    Prop :=
  ∃ r, bloomfilter_new malloc malloc_set malloc_bytes log2f capacity erate = .done r ∧
    ∀ filter, r = some filter → Usable filter

/-- `bloomfilter_new` hands out usable filters only just where `1.0 / erate` is finite as a `float`, the capacity is not
0 and the allocations of the bit set succeed, or where it has no memory for the filter itself. -/
theorem bloomfilter_new_usable_iff (hlog : Log2 log2f) (hpos : 0 < erate) (hlt : erate < 1)
    (hfits : ∀ k, nprobes log2f erate = .done k → scaledBits capacity k < 2 ^ 64) :
    HandsOutUsable malloc malloc_set malloc_bytes log2f capacity erate ↔
      malloc = false ∨ toFloat (toDouble (1 / erate)) < 2 ^ 128 ∧ capacity ≠ 0#64 ∧ malloc_set = true ∧
        malloc_bytes = true := by
  have hrate : ¬ (erate ≤ 0 ∨ erate ≥ 1) := not_or.mpr ⟨hpos.not_ge, hlt.not_ge⟩
  cases malloc with
  | false =>
    refine iff_of_true ⟨none, ?_, nofun⟩ (Or.inl rfl)
    unfold bloomfilter_new
    rw [if_neg hrate]
    rfl
  | true =>
    rw [or_iff_right (by decide)]
    by_cases hfinite : toFloat (toDouble (1 / erate)) < 2 ^ 128
    · rw [and_iff_right hfinite]
      obtain ⟨k, hk⟩ := (nprobes_done_iff hlog hpos hlt).mpr hfinite
      obtain ⟨filter, hnew⟩ := new_done hpos hlt hk (hfits k hk)
      rw [← usable_iff hnew]
      constructor
      · rintro ⟨r, hr, husable⟩
        exact husable filter (Outcome.done.inj (hr.symm.trans hnew))
      · intro husable
        refine ⟨some filter, hnew, fun filter' heq => ?_⟩
        rwa [← Option.some.inj heq]
    · refine iff_of_false ?_ fun h => hfinite h.1
      rintro ⟨r, hr, -⟩
      unfold bloomfilter_new at hr
      rw [if_neg hrate, if_neg (by decide)] at hr
      obtain ⟨k, hk, -⟩ := Outcome.bind_eq_done.mp hr
      exact hfinite ((nprobes_done_iff hlog hpos hlt).mp ⟨k, hk⟩)

/-! ## An error rate of 1/8 -/

/-- A logarithm for runs on fixed input: of a power of 2 it is the exponent. -/
def log2Floor : float → float := Option.map fun x => (Int.log 2 x : ℚ)

theorem log2Floor_log2 : Log2 log2Floor := by
  refine ⟨?_, rfl⟩
  intro x hone hlt
  refine ⟨Int.log 2 x, rfl, ?_, ?_⟩
  · have hlog : 0 ≤ Int.log 2 x := by
      rw [← Int.log_one_right (R := ℚ) 2]
      exact Int.log_mono_right one_pos hone
    exact_mod_cast hlog
  · have hlog : Int.log 2 x < 128 :=
      (Int.lt_zpow_iff_log_lt one_lt_two (zero_lt_one.trans_le hone)).mp (by exact_mod_cast hlt)
    exact_mod_cast hlog.le

theorem nprobes_eighth : nprobes log2Floor (1 / 8) = .done 3 := by decide +kernel

theorem new_eighth (malloc_bytes : Bool) (h : toUlong (scaledBits capacity 3) = .done nbits) :
    bloomfilter_new true true malloc_bytes log2Floor capacity (1 / 8) = .done (some
      { k := 3, capacity, nbits, count := 0, set := bitset_new true malloc_bytes nbits }) := by
  unfold bloomfilter_new
  rw [if_neg (by norm_num), if_neg (by decide), nprobes_eighth, Outcome.done_bind, h]
  rfl

theorem bits_for_one : toUlong (scaledBits 1#64 3) = .done 5#64 := by
  have hbits : scaledBits 1#64 3 = 5 := by decide +kernel
  unfold toUlong
  rw [hbits]
  norm_num

theorem bits_for_none : toUlong (scaledBits 0#64 3) = .done 0#64 := by
  unfold toUlong
  rw [scaledBits_zero]
  norm_num

theorem bloomfilter_new_usable_sample : HandsOutUsable true true true log2Floor 1#64 (1 / 8) := by
  refine (bloomfilter_new_usable_iff log2Floor_log2 (by norm_num) (by norm_num) ?_).mpr
    (Or.inr ⟨by decide +kernel, by decide, rfl, rfl⟩)
  intro k hk
  cases nprobes_eighth.symm.trans hk
  exact (toUlong_done bits_for_one).1

/-- Without memory for the bits a filter forgets its keys, and for the capacity 0 its calls divide by zero. For an error
rate so low that its inverse is infinite, infinity is converted to an `int`. -/
theorem bloomfilter_new_unusable :
    (∃ filter filter', bloomfilter_new true true false log2Floor 1#64 (1 / 8) = .done (some filter) ∧
      bloomfilter_add (some filter) (some [97]) = .done (some filter', 1#32) ∧
      bloomfilter_check (some filter') (some [97]) = .done 0#32 ∧ ¬ Usable filter) ∧
    (∃ filter, bloomfilter_new true true true log2Floor 0#64 (1 / 8) = .done (some filter) ∧
      bloomfilter_add (some filter) (some [97]) = .fault ∧
      bloomfilter_check (some filter) (some [97]) = .fault ∧ ¬ Usable filter) ∧
    bloomfilter_new true true true log2Floor 1#64 (1 / 2 ^ 128) = .fault := by
  have hbytes := new_eighth false bits_for_one
  have hcap := new_eighth true bits_for_none
  have hnot : ∀ filter, filter.nbits = 0#64 → ¬ Usable filter := fun filter hzero husable => husable.nbits_ne hzero
  refine ⟨⟨_, _, hbytes, rfl, rfl, (new_of_done hbytes).not_usable (by decide) rfl⟩,
    ⟨_, hcap, rfl, rfl, hnot _ rfl⟩, ?_⟩
  have hinfinite : inverse (1 / 2 ^ 128) = none := by decide +kernel
  unfold bloomfilter_new nprobes
  rw [if_neg (by norm_num), if_neg (by decide), hinfinite]
  rfl

end Akio.Bloomfilter
