import Akio.Bloomfilter.Model
import Akio.Bitset.Refine
import Akio.Lib.Filter
import Mathlib.Tactic.Ring

/-!
# What the filter answers

The bits that are set are the probe positions of the keys added so far, so the filter is the one of
`Akio.Lib.Filter` with these positions.
-/

namespace Akio.Bloomfilter

open Bitset Bits Akio.Filter

variable {filter filter' : bloomfilter} {set set' : bitset} {nbits : ulong} {h delta : uint32_t}
  {keys : Set (List uchar)} {lights : Set Nat} {k : Nat}

/-! ## Probe positions -/

/-- `h + i*delta mod 2^32`, mod `nbits`. -/
def probe (nbits : ulong) (delta h : uint32_t) (i : Nat) : Nat :=
  (h.toNat + i * delta.toNat) % 2 ^ 32 % nbits.toNat

/-- The first `k` positions from the hash `h`. -/
def probesFrom (nbits : ulong) (delta h : uint32_t) (k : Nat) : Set Nat :=
  {p | ∃ i < k, p = probe nbits delta h i}

/-- The positions of a key. -/
def probes (filter : bloomfilter) (key : List uchar) : Set Nat :=
  probesFrom filter.nbits (deltaOf (bloom_hash key)) (bloom_hash key) filter.k.toNat

theorem probe_next (i : Nat) : probe nbits delta (h + delta) i = probe nbits delta h (i + 1) := by
  unfold probe
  rw [BitVec.toNat_add, Nat.mod_add_mod]
  ring_nf

@[simp] theorem probesFrom_zero : probesFrom nbits delta h 0 = ∅ := by simp [probesFrom]

theorem probesFrom_succ : probesFrom nbits delta h (k + 1) =
    insert (probe nbits delta h 0) (probesFrom nbits delta (h + delta) k) := by
  ext p
  simp only [probesFrom, Set.mem_ofPred_eq, Set.mem_insert_iff, probe_next]
  constructor
  · rintro ⟨i, hi, rfl⟩
    rcases i with _ | i
    · exact Or.inl rfl
    · exact Or.inr ⟨i, by omega, rfl⟩
  · rintro (rfl | ⟨i, hi, rfl⟩)
    · exact ⟨0, by omega, rfl⟩
    · exact ⟨i + 1, by omega, rfl⟩

theorem bitpos_spec (hn : 1 ≤ nbits.toNat) (h delta : uint32_t) : ∃ pos, bitpos h nbits = .done pos ∧
    (pos.setWidth 64).toNat = probe nbits delta h 0 := by
  have hne : nbits ≠ 0#64 := by
    rintro rfl
    exact absurd hn (by decide)
  refine ⟨_, if_neg hne, ?_⟩
  have hlt : h.toNat % nbits.toNat < 2 ^ 32 := (Nat.mod_le _ _).trans_lt h.isLt
  have hh : h.toNat % 2 ^ 64 = h.toNat := Nat.mod_eq_of_lt (h.isLt.trans (by decide))
  unfold probe
  rw [BitVec.toNat_setWidth, BitVec.toNat_setWidth, BitVec.toNat_umod, BitVec.toNat_setWidth, hh,
    Nat.mod_eq_of_lt hlt, Nat.mod_eq_of_lt (hlt.trans (by decide)), Nat.zero_mul, Nat.add_zero,
    Nat.mod_eq_of_lt h.isLt]

/-! ## The loops -/

/-- The set has `nbits` bits, and exactly those in `lights` are 1. -/
structure Lights (set : bitset) (nbits : ulong) (lights : Set Nat) : Prop where
  holds : ∃ vals, Holds set vals ∧ vals.length = nbits.toNat
  lit : ∀ p, bit set.bytes p = true ↔ p ∈ lights

theorem probe_lt (hn : 1 ≤ nbits.toNat) (i : Nat) : probe nbits delta h i < nbits.toNat :=
  Nat.mod_lt _ hn

theorem Lights.light (hl : Lights set nbits lights) {n : ulong} (hn : n.toNat < nbits.toNat) :
    ∃ set' r, bitset_set (some set) n 1#32 = .done (some set', r) ∧
      Lights set' nbits (insert n.toNat lights) := by
  obtain ⟨vals, hholds, hlen⟩ := hl.holds
  obtain ⟨set', heq, -, hholds'⟩ := bitset_set_spec hholds (hlen ▸ hn) (Or.inr rfl)
  refine ⟨set', _, heq, ⟨_, hholds', by simp [hlen]⟩, ?_⟩
  intro p
  rw [hholds'.bits, List.getElem?_set, Set.mem_insert_iff, ← hl.lit, hholds.bits]
  by_cases hp : n.toNat = p
  · simp [hp, hp ▸ hn, hlen]
  · simp [hp, Ne.symm hp]

theorem Lights.get (hl : Lights set nbits lights) {n : ulong} (hn : n.toNat < nbits.toNat) :
    ∃ r, bitset_get (some set) n = .done r ∧ (r = 1#32 ↔ n.toNat ∈ lights) := by
  obtain ⟨vals, hholds, hlen⟩ := hl.holds
  refine ⟨_, bitset_get_spec hholds (hlen ▸ hn), ?_⟩
  rw [← hl.lit, hholds.bits]
  unfold intOf
  cases vals[n.toNat]?.getD false <;> simp

theorem addLoop_spec (hn : 1 ≤ nbits.toNat) (hl : Lights set nbits lights) (delta h : uint32_t) (k : Nat) :
    ∃ set', addLoop nbits delta k (some set) h = .done (some set') ∧
      Lights set' nbits (probesFrom nbits delta h k ∪ lights) := by
  induction k generalizing set lights h with
  | zero => exact ⟨set, rfl, by simpa using hl⟩
  | succ k ih =>
    obtain ⟨pos, hpos, hprobe⟩ := bitpos_spec hn h delta
    obtain ⟨set₁, r, hset, hl₁⟩ := hl.light (hprobe ▸ probe_lt hn 0)
    obtain ⟨set₂, hloop, hl₂⟩ := ih hl₁ (h + delta)
    refine ⟨set₂, ?_, ?_⟩
    · simp [addLoop, hpos, hset, hloop]
    · rwa [probesFrom_succ, Set.insert_union, ← Set.union_insert, ← hprobe]

theorem checkLoop_spec (hn : 1 ≤ nbits.toNat) (hl : Lights set nbits lights) (delta h : uint32_t) (k : Nat) :
    ∃ r, checkLoop nbits delta (some set) k h = .done r ∧ (r = 0#32 ∨ r = 1#32) ∧
      (r = 1#32 ↔ probesFrom nbits delta h k ⊆ lights) := by
  induction k generalizing h with
  | zero => exact ⟨1#32, rfl, Or.inr rfl, by simp⟩
  | succ k ih =>
    obtain ⟨pos, hpos, hprobe⟩ := bitpos_spec hn h delta
    obtain ⟨b, hget, hb⟩ := hl.get (hprobe ▸ probe_lt hn 0)
    obtain ⟨r, hloop, hr, hiff⟩ := ih (h + delta)
    rw [probesFrom_succ, Set.insert_subset_iff, ← hprobe, ← hb]
    by_cases hb1 : b = 1#32
    · refine ⟨r, ?_, hr, by simp [hb1, hiff]⟩
      simp [checkLoop, hpos, hget, hb1, hloop]
    · refine ⟨0#32, ?_, Or.inl rfl, by simp [hb1]⟩
      simp [checkLoop, hpos, hget, hb1]

/-! ## One call -/

/-- The filter has its bit set, where the positions of `keys` are set. -/
def Shows (filter : bloomfilter) (keys : Set (List uchar)) : Prop :=
  ∃ set, filter.set = some set ∧ Lights set filter.nbits (lit (probes filter) keys)

theorem bloomfilter_add_spec (hn : 1 ≤ filter.nbits.toNat) (hs : Shows filter keys) (key : List uchar) :
    ∃ filter' r, bloomfilter_add (some filter) (some key) = .done (some filter', r) ∧
      filter'.k = filter.k ∧ filter'.nbits = filter.nbits ∧
      Shows filter' (if r = 1#32 then insert key keys else keys) := by
  unfold bloomfilter_add
  by_cases hcount : filter.count > filter.capacity
  · exact ⟨filter, 0#32, by simp [hcount], rfl, rfl, by simpa using hs⟩
  · obtain ⟨set, hset, hl⟩ := hs
    obtain ⟨set', hloop, hl'⟩ := addLoop_spec hn hl (deltaOf (bloom_hash key)) (bloom_hash key) filter.k.toNat
    refine ⟨{ filter with set := some set', count := filter.count + 1#64 }, 1#32, ?_, rfl, rfl, set', rfl, ?_⟩
    · simp [hcount, hset, hloop]
    · rw [if_pos rfl, lit_insert]
      exact hl'

theorem bloomfilter_check_spec (hn : 1 ≤ filter.nbits.toNat) (hs : Shows filter keys) (key : List uchar) :
    ∃ r, bloomfilter_check (some filter) (some key) = .done r ∧ (r = 0#32 ∨ r = 1#32) ∧
      (r = 1#32 ↔ Reports (probes filter) keys key) := by
  obtain ⟨set, hset, hl⟩ := hs
  unfold bloomfilter_check
  simp only [hset]
  exact checkLoop_spec hn hl _ _ _

/-! ## Runs -/

/-- One call on the filter. A key may be NULL. -/
inductive Op where
  | add (key : Option (List uchar))
  | check (key : Option (List uchar))

def exec (filter : Option bloomfilter) : Op → Outcome (Option bloomfilter × int)
  | .add key => bloomfilter_add filter key
  | .check key => do
    let r ← bloomfilter_check filter key
    return (filter, r)

/-- The calls one after the other, with what they return. -/
def execAll : Option bloomfilter → List Op → Outcome (Option bloomfilter × List int)
  | filter, [] => return (filter, [])
  | filter, op :: ops => do
    let (filter, r) ← exec filter op
    let (filter, rs) ← execAll filter ops
    return (filter, r :: rs)

/-- The key that a call added, if it is an add that returned 1. -/
def Op.accepted : Op → int → Option (List uchar)
  | .add (some key), r => if r = 1#32 then some key else none
  | _, _ => none

/-- The keys whose add returned 1. -/
def accepted (ops : List Op) (rs : List int) : List (List uchar) :=
  (ops.zip rs).filterMap fun call => call.1.accepted call.2

theorem accepted_cons (op : Op) (ops : List Op) (r : int) (rs : List int) :
    {key | key ∈ accepted (op :: ops) (r :: rs)} =
      {key | op.accepted r = some key} ∪ {key | key ∈ accepted ops rs} := by
  ext key
  unfold accepted
  rw [List.zip_cons_cons, List.filterMap_cons]
  cases op.accepted r <;> simp [eq_comm]

theorem exec_spec (hn : 1 ≤ filter.nbits.toNat) (hs : Shows filter keys) (op : Op) :
    ∃ filter' r, exec (some filter) op = .done (some filter', r) ∧
      filter'.k = filter.k ∧ filter'.nbits = filter.nbits ∧
      Shows filter' (keys ∪ {key | op.accepted r = some key}) := by
  rcases op with (_ | key) | (_ | key)
  · exact ⟨filter, 0#32, rfl, rfl, rfl, by simpa [Op.accepted] using hs⟩
  · obtain ⟨filter', r, heq, hk, hnbits, hs'⟩ := bloomfilter_add_spec hn hs key
    refine ⟨filter', r, heq, hk, hnbits, ?_⟩
    by_cases hr : r = 1#32
    · have hone : {key' | (Op.add (some key)).accepted r = some key'} = {key} := by
        ext key'
        simp [Op.accepted, hr, eq_comm]
      rw [if_pos hr] at hs'
      rwa [hone, Set.union_singleton]
    · simpa [Op.accepted, hr] using hs'
  · exact ⟨filter, 0#32, rfl, rfl, rfl, by simpa [Op.accepted] using hs⟩
  · obtain ⟨r, heq, -, -⟩ := bloomfilter_check_spec hn hs key
    refine ⟨filter, r, ?_, rfl, rfl, by simpa [Op.accepted] using hs⟩
    simp [exec, heq]

theorem execAll_spec (ops : List Op) (hn : 1 ≤ filter.nbits.toNat) (hs : Shows filter keys) :
    ∃ filter' rs, execAll (some filter) ops = .done (some filter', rs) ∧
      filter'.k = filter.k ∧ filter'.nbits = filter.nbits ∧
      Shows filter' (keys ∪ {key | key ∈ accepted ops rs}) := by
  induction ops generalizing filter keys with
  | nil =>
    refine ⟨filter, [], rfl, rfl, rfl, ?_⟩
    have hnone : {key | key ∈ accepted [] []} = (∅ : Set (List uchar)) := by simp [accepted]
    rwa [hnone, Set.union_empty]
  | cons op ops ih =>
    obtain ⟨filter₁, r, heq₁, hk₁, hnbits₁, hs₁⟩ := exec_spec hn hs op
    obtain ⟨filter₂, rs, heq₂, hk₂, hnbits₂, hs₂⟩ := ih (by rwa [hnbits₁]) hs₁
    refine ⟨filter₂, r :: rs, by simp [execAll, heq₁, heq₂], hk₂.trans hk₁, hnbits₂.trans hnbits₁, ?_⟩
    rwa [accepted_cons, ← Set.union_assoc]

theorem shows_of_clear (hset : filter.set = some set)
    (hclear : Holds set (List.replicate filter.nbits.toNat false)) : Shows filter ∅ := by
  refine ⟨set, hset, ⟨_, hclear, by simp⟩, ?_⟩
  intro p
  rw [hclear.bits, lit_empty, List.getElem?_replicate]
  split <;> simp

theorem probes_congr (hk : filter'.k = filter.k) (hnbits : filter'.nbits = filter.nbits) :
    probes filter' = probes filter := by
  unfold probes
  rw [hk, hnbits]

theorem check_eq_one (hn : 1 ≤ filter.nbits.toNat) (hs : Shows filter keys) (q : List uchar) :
    bloomfilter_check (some filter) (some q) = .done 1#32 ↔ Reports (probes filter) keys q := by
  obtain ⟨r, heq, -, hr⟩ := bloomfilter_check_spec hn hs q
  rw [heq, ← hr, Outcome.done.injEq]

theorem check_congr (hn : 1 ≤ filter.nbits.toNat) (hs : Shows filter keys) (hs' : Shows filter' keys)
    (hk : filter'.k = filter.k) (hnbits : filter'.nbits = filter.nbits) (q : List uchar) :
    bloomfilter_check (some filter') (some q) = bloomfilter_check (some filter) (some q) := by
  obtain ⟨r, heq, h01, hr⟩ := bloomfilter_check_spec hn hs q
  obtain ⟨r', heq', h01', hr'⟩ := bloomfilter_check_spec (by rwa [hnbits]) hs' q
  rw [probes_congr hk hnbits, ← hr] at hr'
  rw [heq, heq']
  rcases h01 with rfl | rfl <;> rcases h01' with rfl | rfl <;> simp at hr' ⊢

/-- After every sequence of calls the set bits are the positions of the keys whose add returned 1, and a
check returns 1 exactly for the keys with all positions among them. So no such key is missed, an answer 1
stays 1, and the answers depend on nothing but the set of these keys. -/
theorem bloomfilter_exact (hnbits : 1 ≤ filter.nbits.toNat) (hset : filter.set = some set)
    (hclear : Holds set (List.replicate filter.nbits.toNat false)) (ops : List Op) :
    ∃ filter' rs set', execAll (some filter) ops = .done (some filter', rs) ∧ filter'.set = some set' ∧
      (∀ p, bit set'.bytes p = true ↔ ∃ key ∈ accepted ops rs, p ∈ probes filter key) ∧
      (∀ q, ∃ r, bloomfilter_check (some filter') (some q) = .done r ∧ (r = 0#32 ∨ r = 1#32) ∧
        (r = 1#32 ↔ ∀ p ∈ probes filter q, ∃ key ∈ accepted ops rs, p ∈ probes filter key)) ∧
      (∀ key ∈ accepted ops rs, bloomfilter_check (some filter') (some key) = .done 1#32) ∧
      (∀ more q, bloomfilter_check (some filter') (some q) = .done 1#32 →
        ∃ filter₂ rs₂, execAll (some filter') more = .done (some filter₂, rs₂) ∧
          bloomfilter_check (some filter₂) (some q) = .done 1#32) ∧
      ∀ ops₂ filter₂ rs₂, execAll (some filter) ops₂ = .done (some filter₂, rs₂) →
        (∀ key, key ∈ accepted ops₂ rs₂ ↔ key ∈ accepted ops rs) →
          ∀ q, bloomfilter_check (some filter₂) (some q) = bloomfilter_check (some filter') (some q) := by
  have hstart := shows_of_clear hset hclear
  obtain ⟨filter', rs, heq, hk, hbits, hs⟩ := execAll_spec ops hnbits hstart
  rw [Set.empty_union] at hs
  have hnbits' : 1 ≤ filter'.nbits.toNat := by rwa [hbits]
  obtain ⟨set', hset', hlights⟩ := id hs
  have hprobes : probes filter' = probes filter := probes_congr hk hbits
  have hmem : ∀ p, p ∈ lit (probes filter) {key | key ∈ accepted ops rs} ↔
      ∃ key ∈ accepted ops rs, p ∈ probes filter key := fun p => mem_lit
  refine ⟨filter', rs, set', heq, hset', ?_, ?_, ?_, ?_, ?_⟩
  · intro p
    rw [hlights.lit, hprobes, hmem]
  · intro q
    obtain ⟨r, hcheck, h01, hr⟩ := bloomfilter_check_spec hnbits' hs q
    refine ⟨r, hcheck, h01, hr.trans ?_⟩
    rw [hprobes]
    unfold Reports
    simp only [Set.subset_def, hmem]
  · intro key hkey
    exact (check_eq_one hnbits' hs key).mpr (reports_of_mem hkey)
  · intro more q hone
    obtain ⟨filter₂, rs₂, heq₂, hk₂, hbits₂, hs₂⟩ := execAll_spec more hnbits' hs
    refine ⟨filter₂, rs₂, heq₂, (check_eq_one (by rwa [hbits₂]) hs₂ q).mpr ?_⟩
    rw [probes_congr hk₂ hbits₂]
    exact ((check_eq_one hnbits' hs q).mp hone).mono Set.subset_union_left
  · intro ops₂ filter₂ rs₂ heq₂ hsame q
    obtain ⟨filter₃, rs₃, heq₃, hk₃, hbits₃, hs₃⟩ := execAll_spec ops₂ hnbits hstart
    rw [heq₂] at heq₃
    obtain ⟨rfl, rfl⟩ : filter₂ = filter₃ ∧ rs₂ = rs₃ := by simpa using heq₃
    have hkeys : {key | key ∈ accepted ops₂ rs₂} = {key | key ∈ accepted ops rs} := Set.ext hsame
    rw [Set.empty_union, hkeys] at hs₃
    exact check_congr hnbits' hs hs₃ (hk₃.trans hk.symm) (hbits₃.trans hbits.symm) q

/-- A filter of 64 bits for one key. -/
def filter64 : bloomfilter :=
  { k := 3, capacity := 0, nbits := 64, count := 0, set := some { length := 64, bytes := List.replicate 8 0 } }

theorem filter64_clear : Holds { length := 64, bytes := List.replicate 8 0 } (List.replicate 64 false) := by
  refine ⟨rfl, rfl, ?_⟩
  intro i
  rw [bit_replicate, List.getElem?_replicate]
  split <;> simp

/-- The second key is refused because of the capacity. -/
theorem bloomfilter_exact_sample : ∃ filter',
    execAll (some filter64) [.add (some [97]), .add (some [98]), .add none] =
        .done (some filter', [1#32, 0#32, 0#32]) ∧
      bloomfilter_check (some filter') (some [97]) = .done 1#32 := by
  obtain ⟨filter', hrun⟩ : ∃ filter',
      execAll (some filter64) [.add (some [97]), .add (some [98]), .add none] =
        .done (some filter', [1#32, 0#32, 0#32]) := ⟨_, rfl⟩
  obtain ⟨filter₂, rs, set', heq, -, -, -, hadded, -⟩ :=
    bloomfilter_exact (show 1 ≤ filter64.nbits.toNat by decide) rfl filter64_clear
    [.add (some [97]), .add (some [98]), .add none]
  rw [hrun] at heq
  obtain ⟨rfl, rfl⟩ : filter' = filter₂ ∧ _ = rs := by simpa using heq
  exact ⟨filter', hrun, hadded [97] List.mem_cons_self⟩

end Akio.Bloomfilter
