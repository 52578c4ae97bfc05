import Akio.Timer.Model
import Akio.Lib.HeapOrder
import Mathlib.Data.Int.Order.Basic

/-!
# The two loops that move a timer to its slot

`v i` is the timer that belongs in slot `i`. While a loop runs one slot `h` is a hole: what it holds and
the index of `v h` are not yet right. Each turn swaps two entries of `v`.
-/

namespace Akio.Timer

open HeapOrder

variable {C D : Type} {heap : timer_heap C D} {tes : Nat → Ptr} {timers timers' timers₂ : Store (timer C D)}
  {v v' : Nat → Nat} {n h c fuel p q : Nat} {x : Int} {P Q : Nat → Prop}

abbrev idx (timers : Store (timer C D)) : Nat → Int := timers.field (·.min_heap_idx) (-1)
abbrev due (timers : Store (timer C D)) : Nat → Int := timers.field (·.when_msec) 0
abbrev nextOf (timers : Store (timer C D)) : Nat → Ptr := timers.field (·.next) none

/-- `timers` with another index for `p`. -/
abbrev reindex (timers : Store (timer C D)) (p : Nat) (x : Int) : Store (timer C D) :=
  timers.adjust p fun n => { n with min_heap_idx := x }

/-- `v 0`, .. , `v (n - 1)` are different timers, and `tes` and the indices agree on their slots, but for
the slot `h`. -/
structure Holed (tes : Nat → Ptr) (timers : Store (timer C D)) (v : Nat → Nat) (n h : Nat) : Prop where
  slot : ∀ i < n, i ≠ h → tes i = some (v i)
  back : ∀ i < n, i ≠ h → idx timers (v i) = i
  live : ∀ i < n, timers.Live (v i)
  inj : ∀ i < n, ∀ j < n, v i = v j → i = j

/-- No slot is a hole. -/
abbrev Full (tes : Nat → Ptr) (timers : Store (timer C D)) (v : Nat → Nat) (n : Nat) : Prop :=
  Holed tes timers v n n

/-- The timer `p` is one of those in the heap. -/
def Member (v : Nat → Nat) (n p : Nat) : Prop := ∃ i < n, v i = p

/-- Only the indices of the timers `P` have changed. -/
structure Reindexed (timers timers' : Store (timer C D)) (P : Nat → Prop) : Prop where
  live : ∀ p, timers'.Live p ↔ timers.Live p
  due : due timers' = due timers
  next : nextOf timers' = nextOf timers
  idx : ∀ p, ¬ P p → idx timers' p = idx timers p

theorem Member.of_lt {i : Nat} (hi : i < n) : Member v n (v i) := ⟨i, hi, rfl⟩

theorem Reindexed.trans (h₁ : Reindexed timers timers' P) (h₂ : Reindexed timers' timers₂ P) :
    Reindexed timers timers₂ P where
  live p := (h₂.live p).trans (h₁.live p)
  due := h₂.due.trans h₁.due
  next := h₂.next.trans h₁.next
  idx p hp := (h₂.idx p hp).trans (h₁.idx p hp)

theorem Reindexed.mono (hs : Reindexed timers timers' P) (hPQ : ∀ p, P p → Q p) :
    Reindexed timers timers' Q :=
  { hs with idx := fun p hp => hs.idx p (mt (hPQ p) hp) }

theorem idx_reindex (hp : timers.Live p) : idx (reindex timers p x) = Function.update (idx timers) p x :=
  Store.field_adjust_set (fun _ => rfl) hp

theorem reindexed_adjust (hp : P p) (hlive : timers.Live p) : Reindexed timers (reindex timers p x) P where
  live q := Store.adjust_live
  due := Store.field_adjust_keep fun _ => rfl
  next := Store.field_adjust_keep fun _ => rfl
  idx q hq := by
    rw [idx_reindex hlive]
    apply Function.update_of_ne
    rintro rfl
    exact hq hp

/-! ## Swaps -/

theorem swap_lt {i : Nat} (hh : h < n) (hc : c < n) : Equiv.swap h c i < n ↔ i < n := by
  rw [Equiv.swap_apply_def]
  split_ifs <;> omega

theorem member_swap (hh : h < n) (hc : c < n) :
    Member (fun i => v (Equiv.swap h c i)) n p ↔ Member v n p := by
  unfold Member
  constructor
  · rintro ⟨i, hi, rfl⟩
    exact ⟨_, (swap_lt hh hc).mpr hi, rfl⟩
  · rintro ⟨i, hi, rfl⟩
    exact ⟨Equiv.swap h c i, (swap_lt hh hc).mpr hi, congrArg v (Equiv.swap_apply_self h c i)⟩

theorem Holed.move (hs : Holed tes timers v n h) (hh : h < n) (hc : c < n) :
    Holed (Function.update tes h (some (v c))) (reindex timers (v c) h)
      (fun i => v (Equiv.swap h c i)) n c := by
  refine ⟨?_, ?_, ?_, ?_⟩
  · intro i hi hic
    by_cases hih : i = h
    · rw [hih, Function.update_self, Equiv.swap_apply_left]
    · rw [Function.update_of_ne hih, Equiv.swap_apply_of_ne_of_ne hih hic]
      exact hs.slot i hi hih
  · intro i hi hic
    rw [idx_reindex (hs.live c hc)]
    by_cases hih : i = h
    · rw [hih, Equiv.swap_apply_left, Function.update_self]
    · rw [Equiv.swap_apply_of_ne_of_ne hih hic, Function.update_of_ne]
      · exact hs.back i hi hih
      · exact fun heq => hic (hs.inj i hi c hc heq)
  · intro i hi
    rw [Store.adjust_live]
    exact hs.live _ ((swap_lt hh hc).mpr hi)
  · intro i hi j hj heq
    exact (Equiv.swap h c).injective
      (hs.inj _ ((swap_lt hh hc).mpr hi) _ ((swap_lt hh hc).mpr hj) heq)

theorem Holed.fill (hs : Holed tes timers v n h) (hh : h < n) :
    Full (Function.update tes h (some (v h))) (reindex timers (v h) h) v n := by
  refine ⟨?_, ?_, ?_, hs.inj⟩
  · intro i hi _
    by_cases hih : i = h
    · rw [hih, Function.update_self]
    · rw [Function.update_of_ne hih]
      exact hs.slot i hi hih
  · intro i hi _
    rw [idx_reindex (hs.live h hh)]
    by_cases hih : i = h
    · rw [hih, Function.update_self]
    · rw [Function.update_of_ne]
      · exact hs.back i hi hih
      · exact fun heq => hih (hs.inj i hi h hh heq)
  · intro i hi
    rw [Store.adjust_live]
    exact hs.live i hi

/-! ## One turn -/

/-- A heap in the middle of a loop. -/
abbrev withSlots (heap : timer_heap C D) (tes : Nat → Ptr) (timers : Store (timer C D)) : timer_heap C D :=
  { heap with tes, timers }

theorem Holed.getSlot {i : Nat} (hs : Holed tes timers v n h) (hin : i < n) (hih : i ≠ h)
    (hi : (i : Int) < heap.now) : getSlot (withSlots heap tes timers) i = .done (some (v i)) := by
  unfold Timer.getSlot
  rw [if_pos ⟨by omega, hi⟩, Int.toNat_natCast]
  exact congrArg Outcome.done (hs.slot i hin hih)

theorem setSlot_done (hh : (h : Int) ≤ heap.now) (hall : (h : Int) < heap.all) (hp : timers.Live p) :
    setSlot (withSlots heap tes timers) h (some p) =
      .done (withSlots heap (Function.update tes h (some p)) (reindex timers p h)) := by
  unfold setSlot
  rw [if_pos ⟨by omega, hh, hall⟩, Store.modify_live hp]
  rfl

theorem elem_greater_done (hp : heap.timers.Live p) (hq : heap.timers.Live q) :
    elem_greater heap (some p) (some q) = .done (due heap.timers p > due heap.timers q) := by
  obtain ⟨a, ha⟩ := Store.live_iff.mp hp
  obtain ⟨b, hb⟩ := Store.live_iff.mp hq
  unfold elem_greater due
  rw [Store.read_of_cell ha, Store.read_of_cell hb, Store.field_of_cell ha, Store.field_of_cell hb]
  rfl

theorem parent_cast (hh : 0 < h) : ((h : Int) - 1).tdiv 2 = (parent h : Nat) := by
  unfold parent
  rw [Int.tdiv_eq_ediv_of_nonneg (by omega)]
  omega

/-- How a loop leaves the heap: every timer in one slot, in order, and nothing else changed. -/
structure Settled (timers : Store (timer C D)) (v : Nat → Nat) (n : Nat) (tes : Nat → Ptr)
    (timers' : Store (timer C D)) (v' : Nat → Nat) : Prop where
  full : Full tes timers' v' n
  order : Ordered (fun i => due timers' (v' i)) n
  members : ∀ p, Member v' n p ↔ Member v n p
  same : Reindexed timers timers' (Member v n)

theorem Holed.settled (hs : Holed tes timers v n h) (hh : h < n) (hnow : (h : Int) ≤ heap.now)
    (hall : (h : Int) < heap.all) (ho : Ordered (fun i => due timers (v i)) n) :
    ∃ tes' timers' v', setSlot (withSlots heap tes timers) h (some (v h)) =
      .done (withSlots heap tes' timers') ∧ Settled timers v n tes' timers' v' := by
  have hsame := reindexed_adjust (x := h) (P := Member v n) (Member.of_lt hh) (hs.live h hh)
  refine ⟨_, _, v, setSlot_done hnow hall (hs.live h hh), hs.fill hh, ?_, fun p => Iff.rfl, hsame⟩
  rw [hsame.due]
  exact ho

theorem Settled.after_move (hs : Holed tes timers v n h) (hh : h < n) (hc : c < n) {tes' : Nat → Ptr}
    (hrest : Settled (reindex timers (v c) h) (fun i => v (Equiv.swap h c i)) n tes' timers' v') :
    Settled timers v n tes' timers' v' where
  full := hrest.full
  order := hrest.order
  members p := (hrest.members p).trans (member_swap hh hc)
  same := (reindexed_adjust (Member.of_lt hc) (hs.live c hc)).trans
    (hrest.same.mono fun _ => (member_swap hh hc).mp)

theorem due_reindex : due (reindex timers p x) = due timers := Store.field_adjust_keep fun _ => rfl

/-! ## `_shift_up` -/

theorem shiftUpLoop_spec (fuel : Nat) (hs : Holed tes timers v n h) (hh : h < n)
    (hnow : (n : Int) ≤ heap.now + 1) (hall : (n : Int) ≤ heap.all)
    (hu : UpHole (fun i => due timers (v i)) n h) (hfuel : h < fuel) :
    ∃ tes' timers' v', shiftUpLoop (some (v h)) fuel (withSlots heap tes timers) h =
      .done (withSlots heap tes' timers') ∧ Settled timers v n tes' timers' v' := by
  induction fuel generalizing tes timers v h with
  | zero => omega
  | succ fuel ih =>
    unfold shiftUpLoop
    rcases Nat.eq_zero_or_pos h with rfl | hpos
    · exact hs.settled hh (show ((0 : Nat) : Int) ≤ heap.now by omega) (by omega) (hu.done (by omega))
    · have hph := parent_lt hpos
      have hpn : parent h < n := by omega
      rw [parent_cast hpos, if_pos (by omega), hs.getSlot hpn (by omega) (by omega), Outcome.done_bind,
        elem_greater_done (hs.live _ hpn) (hs.live h hh), Outcome.done_bind]
      by_cases hlt : due timers (v h) < due timers (v (parent h))
      · rw [if_pos (by simpa using hlt), setSlot_done (by omega) (by omega) (hs.live _ hpn),
          Outcome.done_bind]
        have hhole : UpHole (fun i => due (reindex timers (v (parent h)) h)
            (v (Equiv.swap h (parent h) i))) n (parent h) := by
          rw [due_reindex]
          exact hu.move hpos hh hlt
        obtain ⟨tes', timers', v', hrun, hsettled⟩ := ih (hs.move hh hpn) hpn hhole (by omega)
        rw [Equiv.swap_apply_right] at hrun
        exact ⟨tes', timers', v', hrun, hsettled.after_move hs hh hpn⟩
      · rw [if_neg (by simpa using hlt)]
        exact hs.settled hh (show (h : Int) ≤ heap.now by omega) (by omega)
          (hu.done fun _ => not_lt.mp hlt)

/-! ## `_shift_down` -/

theorem lesserChild_spec (heap : timer_heap C D) (hs : Holed tes timers v n h) (hn : heap.now = n)
    (hchild : 2 * (h + 1) ≤ n) :
    ∃ c, lesserChild (withSlots heap tes timers) (2 * ((h : Int) + 1)) = .done (c : Nat) ∧
      c < n ∧ parent c = h ∧ 0 < c ∧
      ∀ i, 0 < i → i < n → parent i = h → due timers (v c) ≤ due timers (v i) := by
  unfold lesserChild parent
  rcases Nat.eq_or_lt_of_le hchild with heq | hlt
  · rw [if_pos (show 2 * ((h : Int) + 1) = heap.now by omega)]
    refine ⟨2 * h + 1, ?_, by omega, by omega, by omega, ?_⟩
    · exact congrArg Outcome.done (show 2 * ((h : Int) + 1) - 1 = ((2 * h + 1 : Nat) : Int) by omega)
    · intro i hpos hi hpar
      rw [show i = 2 * h + 1 by omega]
  · have hl : getSlot (withSlots heap tes timers) (2 * ((h : Int) + 1) - 1) = .done (some (v (2 * h + 1))) := by
      rw [show 2 * ((h : Int) + 1) - 1 = ((2 * h + 1 : Nat) : Int) by omega]
      exact hs.getSlot (by omega) (by omega) (by omega)
    have hr : getSlot (withSlots heap tes timers) (2 * ((h : Int) + 1)) = .done (some (v (2 * h + 2))) := by
      rw [show 2 * ((h : Int) + 1) = ((2 * h + 2 : Nat) : Int) by omega]
      exact hs.getSlot (by omega) (by omega) (by omega)
    rw [if_neg (show ¬ 2 * ((h : Int) + 1) = heap.now by omega), hl, hr, Outcome.done_bind, Outcome.done_bind,
      elem_greater_done (hs.live _ (by omega)) (hs.live _ (by omega))]
    have htwo : ∀ i, 0 < i → i < n → (i - 1) / 2 = h → i = 2 * h + 1 ∨ i = 2 * h + 2 := by
      intro i hpos hi hpar
      omega
    by_cases hgt : due timers (v (2 * h + 2)) > due timers (v (2 * h + 1))
    · refine ⟨2 * h + 1, ?_, by omega, by omega, by omega, ?_⟩
      · rw [decide_eq_true hgt]
        exact congrArg Outcome.done (show 2 * ((h : Int) + 1) - 1 = ((2 * h + 1 : Nat) : Int) by omega)
      · intro i hpos hi hpar
        rcases htwo i hpos hi hpar with rfl | rfl <;> omega
    · refine ⟨2 * h + 2, ?_, by omega, by omega, by omega, ?_⟩
      · rw [decide_eq_false hgt]
        exact congrArg Outcome.done (show 2 * ((h : Int) + 1) = ((2 * h + 2 : Nat) : Int) by omega)
      · intro i hpos hi hpar
        rcases htwo i hpos hi hpar with rfl | rfl <;> omega

theorem shiftDownLoop_spec (fuel : Nat) (hs : Holed tes timers v n h) (hh : h < n) (hn : heap.now = n)
    (hall : (n : Int) ≤ heap.all) (hd : DownHole (fun i => due timers (v i)) n h) (hfuel : n < fuel + h) :
    ∃ tes' timers' v', shiftDownLoop (some (v h)) fuel (withSlots heap tes timers) h =
      .done (withSlots heap tes' timers') ∧ Settled timers v n tes' timers' v' := by
  induction fuel generalizing tes timers v h with
  | zero => omega
  | succ fuel ih =>
    unfold shiftDownLoop
    by_cases hchild : 2 * (h + 1) ≤ n
    · obtain ⟨c, hlesser, hcn, hpar, hpos, hleast⟩ := lesserChild_spec heap hs hn hchild
      have hhc : h < c := hpar ▸ parent_lt hpos
      rw [if_pos (show 2 * ((h : Int) + 1) ≤ heap.now by omega), hlesser, Outcome.done_bind,
      hs.getSlot hcn (by omega) (by omega),
        Outcome.done_bind, elem_greater_done (hs.live h hh) (hs.live c hcn), Outcome.done_bind]
      by_cases hlt : due timers (v c) < due timers (v h)
      · rw [if_pos (by simpa using hlt), setSlot_done (by omega) (by omega) (hs.live c hcn),
          Outcome.done_bind]
        have hhole : DownHole (fun i => due (reindex timers (v c) h) (v (Equiv.swap h c i))) n c := by
          rw [due_reindex]
          exact hd.move hpos hcn hpar hleast hlt
        obtain ⟨tes', timers', v', hrun, hsettled⟩ := ih (hs.move hh hcn) hcn hhole (by omega)
        rw [Equiv.swap_apply_right] at hrun
        exact ⟨tes', timers', v', hrun, hsettled.after_move hs hh hcn⟩
      · rw [if_neg (by simpa using hlt)]
        exact hs.settled hh (show (h : Int) ≤ heap.now by omega) (by omega)
          (hd.done fun i hi hin hp => (not_lt.mp hlt).trans (hleast i hi hin hp))
    · rw [if_neg (show ¬ 2 * ((h : Int) + 1) ≤ heap.now by omega)]
      apply hs.settled hh (show (h : Int) ≤ heap.now by omega) (by omega)
      apply hd.done
      intro i hi hin hp
      unfold parent at hp
      omega

/-! ## The choice between the two -/

/-- The heap is in order but for a new content in slot `h`. -/
theorem shift_spec {key : Nat → Int} (hs : Holed tes timers v n h) (hh : h < n) (hn : heap.now = n)
    (hall : (n : Int) ≤ heap.all) (ho : Ordered key n) (hkey : ∀ i < n, i ≠ h → due timers (v i) = key i) :
    ∃ tes' timers' v', shift (withSlots heap tes timers) h (some (v h)) =
      .done (withSlots heap tes' timers') ∧ Settled timers v n tes' timers' v' := by
  have hfuel : (withSlots heap tes timers).now.toNat = n := (congrArg Int.toNat hn).trans (Int.toNat_natCast n)
  have hdown (hle : 0 < h → due timers (v (parent h)) ≤ due timers (v h)) :=
    shiftDownLoop_spec (n + 1) hs hh hn hall (ho.replace_down hh hkey hle) (by omega)
  unfold shift shift_up shift_down
  rw [hfuel]
  rcases Nat.eq_zero_or_pos h with rfl | hpos
  · exact hdown (by omega)
  · have hph := parent_lt hpos
    have hpn : parent h < n := by omega
    rw [parent_cast hpos, if_pos (show (h : Int) > 0 by omega),
      hs.getSlot hpn (by omega) (show ((parent h : Nat) : Int) < heap.now by omega),
      Outcome.done_bind, elem_greater_done (hs.live _ hpn) (hs.live h hh)]
    by_cases hlt : due timers (v (parent h)) > due timers (v h)
    · rw [decide_eq_true hlt]
      exact shiftUpLoop_spec (n + 1) hs hh (by omega) hall (ho.replace_up hh hkey hpos hlt) (by omega)
    · rw [decide_eq_false hlt]
      exact hdown fun _ => not_lt.mp hlt

theorem shift_last (hs : Full tes timers v n) (hn : heap.now = n) (hall : (n : Int) < heap.all)
    (hp : timers.Live p) (hle : 0 < n → due timers (v (parent n)) ≤ due timers p) :
    shift (withSlots heap tes timers) n (some p) =
      .done (withSlots heap (Function.update tes n (some p)) (reindex timers p n)) := by
  have hstop : shift_down (withSlots heap tes timers) n (some p) =
      .done (withSlots heap (Function.update tes n (some p)) (reindex timers p n)) := by
    unfold shift_down shiftDownLoop
    rw [if_neg (show ¬ 2 * ((n : Int) + 1) ≤ heap.now by omega)]
    exact setSlot_done (by omega) hall hp
  unfold shift
  rcases Nat.eq_zero_or_pos n with rfl | hpos
  · exact hstop
  · have hpn := parent_lt hpos
    rw [parent_cast hpos, if_pos (show (n : Int) > 0 by omega),
      hs.getSlot hpn (by omega) (show ((parent n : Nat) : Int) < heap.now by omega), Outcome.done_bind,
      elem_greater_done (hs.live _ hpn) hp, decide_eq_false (not_lt.mpr (hle hpos))]
    exact hstop

end Akio.Timer
