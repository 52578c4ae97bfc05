import Akio.Timer.Reach
import Mathlib.Algebra.Group.Int.Defs
import Mathlib.Algebra.Group.Nat.Defs

/-!
# How long to wait for the next timer

`get_shortest_msec` looks at the first slot of the heap, which holds a timer that is due no later than any other.
-/

namespace Akio.Timer

variable {C D : Type} {heap heap₀ : timer_heap C D} {v : Nat → Nat} {n t : Nat} {clock : Int}

/-- How long the timer has to wait, and 0 when it is overdue. -/
def waitFor (heap : timer_heap C D) (clock : Int) (t : Nat) : Int := max 0 (due heap.timers t - clock)

/-- `r` is no longer than any timer has to wait, and as long as the shortest wait where an `int` can say so. -/
structure Shortest (heap : timer_heap C D) (clock r : Int) : Prop where
  empty : r = -1 ↔ ∀ t, ¬ Scheduled heap t
  range : ∀ t, Scheduled heap t → 0 ≤ r ∧ r ≤ INT32_MAX
  le : ∀ t, Scheduled heap t → r ≤ waitFor heap clock t
  least : ∀ t, Scheduled heap t → (∀ t', Scheduled heap t' → waitFor heap clock t ≤ waitFor heap clock t') →
    waitFor heap clock t ≤ INT32_MAX → r = waitFor heap clock t

/-- A value of `int64_t` in `w` bits. -/
def cut (w : Nat) (x : Int) : Int := x.bmod (2 ^ w)

/-- `get_shortest_msec` with the subtraction in `int64_t`, and the result cut to an `int`. -/
def get_shortest_msec64 (clock : Int) (heap : timer_heap C D) : Outcome Int := do
  let te ← heap_top heap
  if te = none then return -1
  let n ← heap.timers.read te
  let msec := cut 64 (n.when_msec - clock)
  let msec := if msec > INT32_MAX then INT32_MAX else msec
  return cut 32 (if msec < 0 then 0 else msec)

/-- The clock does not go below 0, and it and the times of the timers are values of `int64_t`. -/
structure InRange (heap : timer_heap C D) (clock : Int) : Prop where
  clock : 0 ≤ clock ∧ clock < 2 ^ 63
  due : ∀ t, Scheduled heap t → 0 ≤ due heap.timers t ∧ due heap.timers t < 2 ^ 63

theorem cut_of_range {w : Nat} {x : Int} (hlo : -2 ^ w ≤ x) (hhi : x < 2 ^ w) : cut (w + 1) x = x := by
  have hpow : ((2 ^ (w + 1) : Nat) : Int) = 2 * 2 ^ w := by
    rw [Int.natCast_pow, Int.pow_succ, Int.mul_comm]
    rfl
  unfold cut
  apply Int.bmod_eq_of_le <;> omega

/-! ## The first slot -/

theorem Good.scheduled_zero {f l : List Nat} (hg : Good heap v n f l) (hn : n ≠ 0) : Scheduled heap (v 0) :=
  hg.scheduled_iff.mpr (Member.of_lt (by omega))

theorem Good.empty_iff {f l : List Nat} (hg : Good heap v n f l) : n = 0 ↔ ∀ t, ¬ Scheduled heap t := by
  constructor
  · rintro rfl t hs
    obtain ⟨i, hi, -⟩ := hg.scheduled_iff.mp hs
    omega
  · intro hnone
    by_contra hn
    exact hnone _ (hg.scheduled_zero hn)

theorem shortest_of_good {f l : List Nat} (hg : Good heap v n f l) (clock : Int) :
    ∃ r, get_shortest_msec clock heap = .done r ∧ Shortest heap clock r := by
  refine ⟨_, get_shortest_msec_spec clock hg.heapOf, ?_, ?_, ?_, ?_⟩
  all_goals
    have hle : ∀ t, Scheduled heap t → due heap.timers (v 0) ≤ due heap.timers t :=
      fun t hs => hg.heapOf.top_le (hg.scheduled_iff.mp hs)
    have hempty := hg.empty_iff
    unfold INT32_MAX
  · rw [← hempty]
    split_ifs with hn
    · exact iff_of_true rfl hn
    · exact iff_of_false (by omega) hn
  · intro t hs
    rw [if_neg fun hn => hempty.mp hn t hs]
    omega
  · intro t hs
    have := hle t hs
    rw [if_neg fun hn => hempty.mp hn t hs]
    unfold waitFor
    omega
  · intro t hs hleast hfits
    have hn : n ≠ 0 := fun hn => hempty.mp hn t hs
    have hzero := hleast _ (hg.scheduled_zero hn)
    have := hle t hs
    rw [if_neg hn]
    unfold waitFor at *
    omega

theorem get_shortest_msec64_eq {f l : List Nat} (hg : Good heap v n f l) (hrange : InRange heap clock) :
    get_shortest_msec64 clock heap = get_shortest_msec clock heap := by
  have htop := heap_top_spec hg.heapOf
  unfold get_shortest_msec64 get_shortest_msec
  rw [htop, Outcome.done_bind, Outcome.done_bind]
  by_cases hn : n = 0
  · rw [if_pos hn]
    rfl
  · obtain ⟨a, ha⟩ := Store.live_iff.mp (hg.heapOf.live (Member.of_lt (show 0 < n by omega)))
    have hdue : due heap.timers (v 0) = a.when_msec := Store.field_of_cell ha
    have hclock := hrange.clock
    have htime := hrange.due _ (hg.scheduled_zero hn)
    rw [hdue] at htime
    have hsub : cut 64 (a.when_msec - clock) = a.when_msec - clock := cut_of_range (by omega) (by omega)
    have hint : ∀ x : Int, 0 ≤ x → x ≤ INT32_MAX → cut 32 x = x := by
      intro x h0 hmax
      unfold INT32_MAX at hmax
      exact cut_of_range (by omega) (by omega)
    simp only [if_neg hn, Option.some_ne_none, if_false]
    rw [Store.read_of_cell ha, Outcome.done_bind, Outcome.done_bind]
    simp only [hsub]
    apply congrArg Outcome.done
    apply hint <;> unfold INT32_MAX <;> split_ifs <;> omega

/-! ## Every heap -/

/-- In every heap that calls can lead to, and for every clock, the loop is told to wait until the next timer and no
longer, and for clocks and times of `int64_t` no value on the way wraps around. -/
theorem shortest_of_run {maxsize : Int} {calls : List (Call C D)}
    (hnew : timer_heap_create true true maxsize = some heap₀) (hrun : Run Returned heap₀ calls heap) (clock : Int) :
    ∃ r, get_shortest_msec clock heap = .done r ∧ Shortest heap clock r ∧
      (InRange heap clock → get_shortest_msec64 clock heap = .done r) := by
  obtain ⟨v, n, f, l, hg⟩ := good_of_returned hnew hrun
  obtain ⟨r, hdone, hshortest⟩ := shortest_of_good hg clock
  exact ⟨r, hdone, hshortest, fun hrange => (get_shortest_msec64_eq hg hrange).trans hdone⟩

/-- Three timers, the second of which is the first to fire. -/
def threeCalls : List (Call Nat Nat) :=
  [.act (.create true true 0 30 0 0), .act (.create true true 0 10 0 0), .act (.create true true 0 20 0 0)]

def threeHeap : timer_heap Nat Nat := (threeCalls.foldlM step? newHeap).get (by decide +kernel)

theorem threeHeap_due {t : Nat} (ht : Scheduled threeHeap t) :
    0 ≤ due threeHeap.timers t ∧ due threeHeap.timers t < 2 ^ 63 := by
  obtain ⟨i, hi, hslot⟩ := ht
  have hall : ∀ i < 3, ∃ t, threeHeap.tes i = some t ∧ 0 ≤ due threeHeap.timers t ∧
      due threeHeap.timers t < 2 ^ 63 := by
    intro i hi
    obtain rfl | rfl | rfl : i = 0 ∨ i = 1 ∨ i = 2 := by omega
    · exact ⟨1, by decide +kernel⟩
    · exact ⟨0, by decide +kernel⟩
    · exact ⟨2, by decide +kernel⟩
  have hnow : threeHeap.now = 3 := by decide +kernel
  obtain ⟨t', hslot', hdue⟩ := hall i (by rw [hnow] at hi; omega)
  cases hslot.symm.trans hslot'
  exact hdue

theorem shortest_of_run_sample : get_shortest_msec 4 threeHeap = .done 6 ∧ Shortest threeHeap 4 6 ∧
    get_shortest_msec64 4 threeHeap = .done 6 := by
  have hrun : Run Returned newHeap threeCalls threeHeap := Run.of_foldlM returned_of_step? (Option.some_get _).symm
  obtain ⟨r, hdone, hshortest, hsame⟩ :=
    shortest_of_run (show timer_heap_create true true 16 = some newHeap from rfl) hrun 4
  have hsix : get_shortest_msec 4 threeHeap = .done 6 := by decide +kernel
  cases hsix.symm.trans hdone
  exact ⟨hdone, hshortest, hsame ⟨by decide, fun t ht => threeHeap_due ht⟩⟩

end Akio.Timer
