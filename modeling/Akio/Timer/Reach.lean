import Akio.Timer.Account

/-!
# Every heap there is

A call that faults does not return, so nothing more has to be asked of the calls of a run: whatever returned
left each timer in the heap, in the free list, or lost to a `realloc` that was refused.
-/

namespace Akio.Timer

variable {C D : Type} {heap heap' heap₀ : timer_heap C D} {v : Nat → Nat} {n p te : Nat} {f l : List Nat}
  {turn : Turn C D} {turns : List (Turn C D)} {fired : Fired}

/-- A call that returned. -/
def Returned (heap : timer_heap C D) (call : Call C D) (heap' : timer_heap C D) : Prop :=
  runCall heap call = .done heap'

/-! ## A timer that is fired when it is not in the heap -/

theorem getSlot_neg (heap : timer_heap C D) : getSlot heap (-1) = .fault := if_neg (by omega)

theorem shift_down_neg (hnow : 0 ≤ heap.now) (t : Ptr) : shift_down heap (-1) t = .fault := by
  unfold shift_down shiftDownLoop lesserChild
  dsimp only
  rw [if_pos (show 2 * (-1 + 1) ≤ heap.now by omega)]
  by_cases hzero : heap.now = 0
  · rw [if_pos (show 2 * (-1 + 1) = heap.now by omega)]
    simp only [Outcome.pure_eq, Outcome.done_bind, if_true]
    rw [show (2 : Int) * (-1 + 1) - 1 = -1 from rfl, getSlot_neg]
    rfl
  · rw [if_neg (show ¬ 2 * (-1 + 1) = heap.now by omega)]
    have hfirst : getSlot heap (2 * (-1 + 1)) = .done (heap.tes 0) := if_pos ⟨by omega, by omega⟩
    rw [hfirst, Outcome.done_bind, show (2 : Int) * (-1 + 1) - 1 = -1 from rfl, getSlot_neg]
    rfl

theorem heap_adjust_out (hnow : 0 ≤ heap.now) (hlive : heap.timers.Live p) (hidx : idx heap.timers p = -1) :
    heap_adjust heap (some p) = .fault := by
  obtain ⟨a, ha⟩ := Store.live_iff.mp hlive
  have hout : a.min_heap_idx = -1 := (Store.field_of_cell ha).symm.trans hidx
  have hshift : shift heap (-1) (some p) = .fault := by
    unfold shift
    dsimp only
    rw [if_neg (show ¬ (-1 : Int) > 0 by decide)]
    exact shift_down_neg hnow (some p)
  unfold heap_adjust
  rw [Store.read_of_cell ha, Outcome.done_bind, hout]
  exact congrArg (· >>= _) hshift

/-! ## One call -/

theorem fire_good (hg : Good heap v n f l) (hfire : fire heap te turn = .done (heap', fired)) :
    ∃ v' n' f' l', Good heap' v' n' f' l' := by
  unfold fire at hfire
  obtain ⟨a, -, hfire⟩ := Outcome.bind_eq_done.mp hfire
  obtain ⟨⟨heap₁, created, deleted⟩, hrun, hfire⟩ := Outcome.bind_eq_done.mp hfire
  obtain ⟨v₁, n₁, f₁, l₁, hg₁, -⟩ := runCallback_spec hg hrun
  dsimp only at hfire
  split at hfire
  · obtain ⟨⟨heap₂, r⟩, hdelete, hfire⟩ := Outcome.bind_eq_done.mp hfire
    cases hfire
    rcases delete_timer_spec hg₁ (live_of_delete hdelete) with ⟨-, heq⟩ | ⟨-, heap₃, v', f', heq, hg', -⟩
    · cases hdelete.symm.trans heq
      exact ⟨_, _, _, _, hg₁⟩
    · cases hdelete.symm.trans heq
      exact ⟨_, _, _, _, hg'⟩
  · obtain ⟨timers, hmodify, hfire⟩ := Outcome.bind_eq_done.mp hfire
    obtain ⟨⟨heap₂, r⟩, hadjust, hfire⟩ := Outcome.bind_eq_done.mp hfire
    cases hfire
    have hlive := Store.live_of_modify hmodify
    rw [Store.modify_live hlive] at hmodify
    cases hmodify
    rcases (hg₁.live te).mp hlive with hm | hf
    · obtain ⟨heap₃, v', heq, hg', -⟩ := hg₁.rearm hm (turn.later + turn.retval)
      cases hadjust.symm.trans heq
      exact ⟨_, _, _, _, hg'⟩
    · -- The callback deleted the timer, and the slot before the first one is read.
      have hnow : 0 ≤ heap₁.now := by
        rw [hg₁.heapOf.now]
        omega
      have hidx : idx (retime heap₁.timers te (turn.later + turn.retval)) te = -1 :=
        (congrFun idx_retime te).trans (hg₁.freed te hf)
      have hout : heap_adjust { heap₁ with timers := retime heap₁.timers te (turn.later + turn.retval) } (some te) =
          .fault := heap_adjust_out hnow (Store.adjust_live.mpr hlive) hidx
      cases hadjust.symm.trans hout

theorem processLoop_good {processed : Int} {log : List Fired} {r : timer_heap C D × Int × List Fired}
    (hg : Good heap v n f l) (hdone : processLoop heap processed log turns = .done r) :
    ∃ v' n' f' l', Good r.1 v' n' f' l' := by
  induction turns generalizing heap v n f l processed log with
  | nil =>
    obtain ⟨te, -, hdone⟩ := Outcome.bind_eq_done.mp hdone
    split at hdone
    · cases hdone
    · cases hdone
      exact ⟨_, _, _, _, hg⟩
  | cons turn turns ih =>
    obtain ⟨te, -, hdone⟩ := Outcome.bind_eq_done.mp hdone
    cases te with
    | none =>
      cases hdone
      exact ⟨_, _, _, _, hg⟩
    | some te =>
      obtain ⟨a, -, hdone⟩ := Outcome.bind_eq_done.mp hdone
      split at hdone
      · cases hdone
        exact ⟨_, _, _, _, hg⟩
      · obtain ⟨⟨heap₁, fired⟩, hfire, hdone⟩ := Outcome.bind_eq_done.mp hdone
        obtain ⟨v₁, n₁, f₁, l₁, hg₁⟩ := fire_good hg hfire
        exact ih hg₁ hdone

theorem runCall_good {call : Call C D} (hg : Good heap v n f l) (hdone : runCall heap call = .done heap') :
    ∃ v' n' f' l', Good heap' v' n' f' l' := by
  cases call with
  | act a =>
    obtain ⟨⟨heap₁, created, deleted⟩, hact, hdone⟩ := Outcome.bind_eq_done.mp hdone
    cases hdone
    obtain ⟨_, _, _, v', n', f', l', heq, hg', -⟩ := runAct_spec hg (Proper.of_done hact)
    cases hact.symm.trans heq
    exact ⟨v', n', f', l', hg'⟩
  | process turns =>
    obtain ⟨⟨heap₁, processed, log⟩, hloop, hdone⟩ := Outcome.bind_eq_done.mp hdone
    cases hdone
    exact processLoop_good hg hloop

/-! ## Runs -/

theorem good_of_returned {maxsize : Int} {calls : List (Call C D)}
    (hnew : timer_heap_create true true maxsize = some heap₀) (hrun : Run Returned heap₀ calls heap) :
    ∃ v n f l, Good heap v n f l := by
  refine hrun.invariant (P := fun heap => ∃ v n f l, Good heap v n f l) ?_ ⟨_, _, _, _, new_good hnew⟩
  rintro heap call heap' ⟨v, n, f, l, hg⟩ hdone
  exact runCall_good hg hdone

/-- `Returned`, computed. -/
def step? (heap : timer_heap Nat Nat) (call : Call Nat Nat) : Option (timer_heap Nat Nat) :=
  match runCall heap call with
  | .done heap' => some heap'
  | _ => none

theorem returned_of_step? (heap : timer_heap Nat Nat) (call : Call Nat Nat) (heap' : timer_heap Nat Nat)
    (h : step? heap call = some heap') : Returned heap call heap' := by
  unfold step? at h
  split at h
  · next hdone =>
    obtain rfl := Option.some.inj h
    exact hdone
  · cases h

end Akio.Timer
