import Akio.Lib.Alike
import Akio.Loop.Runs

/-!
# `event_loop_stop`

A call of it is seen between two calls of `process_events` only. The callbacks that are due still run.
-/

namespace Akio.Loop

open Event Timer

variable {C D P K R U A : Type} {b : Poller C D P K R} {prog : Program C D K U A} {loop loop' : FullLoop C D P}
  {u u' : U}

def Effect.isStop : Effect C D K → Bool
  | .stop => true
  | _ => false

/-- The program that notes a call of `event_loop_stop` and does not make it. -/
def Program.noting (prog : Program C D K U A) : Program C D K (U × Bool) A where
  event_callback cb fd data answer s := do
    let (u, effects) ← prog.event_callback cb fd data answer s.1
    return ((u, s.2 || effects.any Effect.isStop), effects.filter fun effect => !effect.isStop)
  timer_callback cb data answer s := do
    let (u, effects, retval) ← prog.timer_callback cb data answer s.1
    return ((u, s.2 || effects.any Effect.isStop), effects.filter fun effect => !effect.isStop, retval)

theorem noting_event (cb : C) (fd : Int) (data : D) (answer : A) (u : U) (asked : Bool) :
    (prog.event_callback cb fd data answer u).Alike
      (fun r r' => r' = ((r.1, asked || r.2.any Effect.isStop), r.2.filter fun effect => !effect.isStop))
      (prog.noting.event_callback cb fd data answer (u, asked)) := by
  unfold Program.noting
  dsimp only
  cases prog.event_callback cb fd data answer u with
  | done r => exact .done rfl
  | fault => exact .fault
  | running => exact .running

theorem noting_timer (cb : C) (data : D) (answer : A) (u : U) (asked : Bool) :
    (prog.timer_callback cb data answer u).Alike
      (fun r r' => r' = ((r.1, asked || r.2.1.any Effect.isStop), r.2.1.filter (fun effect => !effect.isStop), r.2.2))
      (prog.noting.timer_callback cb data answer (u, asked)) := by
  unfold Program.noting
  dsimp only
  cases prog.timer_callback cb data answer u with
  | done r => exact .done rfl
  | fault => exact .fault
  | running => exact .running

/-! ## One call of `process_events` -/

/-- The loop `loop'` is `loop` where the flag is `stop`, and that of `loop` is `asked`. -/
structure Apart (stop asked : Bool) (loop loop' : FullLoop C D P) : Prop where
  same : loop' = { loop with stop }
  flag : loop.stop = asked

theorem runEffect_noting (stop : Bool) (loop : FullLoop C D P) {effect : Effect C D K}
    (heffect : effect.isStop = false) :
    (runEffect b loop effect).Alike (fun r r' => Apart stop loop.stop r.1 r'.1 ∧ r'.2 = r.2)
      (runEffect b { loop with stop } effect) := by
  cases effect with
  | event act => exact .same fun r => .done ⟨⟨rfl, rfl⟩, rfl⟩
  | timer act => exact .same fun r => .done ⟨⟨rfl, rfl⟩, rfl⟩
  | stop => cases heffect

theorem runEffects_noting (stop : Bool) (effects : List (Effect C D K)) (loop : FullLoop C D P) :
    (runEffects b loop effects).Alike
      (fun r r' => Apart stop (loop.stop || effects.any Effect.isStop) r.1 r'.1 ∧ r'.2 = r.2)
      (runEffects b { loop with stop } (effects.filter fun effect => !effect.isStop)) := by
  induction effects generalizing loop with
  | nil => exact .done ⟨⟨rfl, by simp⟩, rfl⟩
  | cons effect effects ih =>
    cases heffect : effect.isStop with
    | true =>
      obtain rfl : effect = .stop := by cases effect <;> simp_all [Effect.isStop]
      rw [List.filter_cons_of_neg (by simp [heffect]), List.any_cons, heffect, Bool.true_or, Bool.or_true]
      apply (ih (event_loop_stop loop)).bind_left
      rintro ⟨loop₁, r⟩ ⟨loop₁', r'⟩ ⟨hapart, hrest⟩
      exact .done ⟨hapart, hrest⟩
    | false =>
      rw [List.filter_cons_of_pos (by simp [heffect]), List.any_cons, heffect, Bool.false_or]
      apply (runEffect_noting stop loop heffect).bind
      rintro ⟨loop₁, r⟩ ⟨loop₁', r'⟩ ⟨⟨hsame, hflag⟩, hrest⟩
      obtain rfl : loop₁' = { loop₁ with stop } := hsame
      obtain rfl : r' = r := hrest
      rw [← hflag]
      apply (ih loop₁).bind
      rintro ⟨loop₂, s⟩ ⟨loop₂', s'⟩ ⟨hapart, hrest⟩
      obtain rfl : s' = s := hrest
      exact .done ⟨hapart, rfl⟩

section

variable {active : ev_active} {actives : List ev_active} {d : Direction} {answer : A}

/-- What the other program returns. -/
def noted {α : Type} (stop : Bool) (r : FullLoop C D P × U × α) : FullLoop C D P × (U × Bool) × α :=
  ({ r.1 with stop }, (r.2.1, r.1.stop), r.2.2)

theorem invoke_noting (stop : Bool) (loop : FullLoop C D P) (u : U) :
    (invoke b prog answer loop u active d).Alike (fun r r' => r' = noted stop r)
      (invoke b prog.noting answer { loop with stop } (u, loop.stop) active d) := by
  apply Outcome.Alike.same
  intro ev
  split_ifs
  · refine .same fun cb => .same fun data => ?_
    apply (noting_event cb active.fd data answer u loop.stop).bind
    rintro ⟨u₁, effects⟩ _ rfl
    apply (runEffects_noting stop effects loop).bind
    rintro ⟨loop₁, log, r₁⟩ ⟨loop₁', log', r₁'⟩ ⟨⟨hsame, hflag⟩, hrest⟩
    obtain ⟨rfl, rfl⟩ := Prod.mk.inj hrest
    obtain rfl : loop₁' = { loop₁ with stop } := hsame
    refine .done ?_
    unfold noted
    rw [← hflag]
  · exact .done rfl

theorem dispatch_noting (stop : Bool) {answers : Nat → Direction → A} (j : Nat) (loop : FullLoop C D P) (u : U) :
    (dispatch b prog answers loop u j actives).Alike
      (fun r r' => r' = noted stop r)
      (dispatch b prog.noting answers { loop with stop } (u, loop.stop) j actives) := by
  induction actives generalizing j loop u with
  | nil => exact .done rfl
  | cons active actives ih =>
    apply (invoke_noting stop loop u).bind
    rintro ⟨loop₁, u₁, log₁⟩ _ rfl
    apply (invoke_noting stop loop₁ u₁).bind
    rintro ⟨loop₂, u₂, log₂⟩ _ rfl
    apply (ih (j + 1) loop₂ u₂).bind
    rintro ⟨loop₃, u₃, log₃⟩ _ rfl
    exact .done rfl

theorem fire_noting (stop : Bool) {te : Nat} {tick : Tick A} (loop : FullLoop C D P) (u : U) :
    (fire b prog loop u te tick).Alike (fun r r' => r' = noted stop r)
      (fire b prog.noting { loop with stop } (u, loop.stop) te tick) := by
  apply Outcome.Alike.same
  intro n
  apply (noting_timer n.cb n.data tick.answer u loop.stop).bind
  rintro ⟨u₁, effects, retval⟩ _ rfl
  apply (runEffects_noting stop effects loop).bind
  rintro ⟨loop₁, r₁⟩ ⟨loop₁', r₁'⟩ ⟨⟨hsame, hflag⟩, hrest⟩
  obtain rfl : loop₁' = { loop₁ with stop } := hsame
  obtain rfl : r₁' = r₁ := hrest
  unfold noted
  dsimp only at hflag ⊢
  rw [← hflag]
  split_ifs
  · exact .same fun _ => .done rfl
  · exact .same fun _ => .same fun _ => .done rfl

theorem processLoop_noting (stop : Bool) {ticks : List (Tick A)} (processed : Int) (fired : List Fired)
    (log : List (Entry C D)) (loop : FullLoop C D P) (u : U) :
    (processLoop b prog loop u processed fired log ticks).Alike
      (fun r r' => r' = noted stop r)
      (processLoop b prog.noting { loop with stop } (u, loop.stop) processed fired log ticks) := by
  induction ticks generalizing processed fired log loop u with
  | nil =>
    refine .same fun te => ?_
    split_ifs
    · exact .running
    · exact .done rfl
  | cons tick ticks ih =>
    refine .same fun te => ?_
    cases te with
    | none => exact .done rfl
    | some te =>
      refine .same fun n => ?_
      split_ifs
      · exact .done rfl
      · apply (fire_noting stop loop u).bind
        rintro ⟨loop₁, u₁, one, log₁⟩ _ rfl
        exact ih _ _ _ loop₁ u₁

end

theorem process_events_noting (stop : Bool) (round : Round A R) (loop : FullLoop C D P) (u : U) :
    (process_events b prog round loop u).Alike (fun r r' => r' = noted stop r)
      (process_events b prog.noting round { loop with stop } (u, loop.stop)) := by
  refine .same fun timeout => .same fun polled => ?_
  apply (dispatch_noting stop 0 { loop with poller := polled.1 } u).bind
  rintro ⟨loop₁, u₁, log₁⟩ _ rfl
  apply (processLoop_noting stop _ _ _ loop₁ u₁).bind
  rintro ⟨loop₂, u₂, r₂⟩ _ rfl
  exact .done rfl

/-! ## The loop -/

/-- A call of `process_events` that goes on from a state where no callback asked to stop, with the calls so far. -/
def Passes (b : Poller C D P K R) (prog : Program C D K U A) (s : FullLoop C D P × (U × Bool) × List (Pass C D))
    (round : Round A R) (s' : FullLoop C D P × (U × Bool) × List (Pass C D)) : Prop :=
  s.2.1.2 = false ∧ ∃ pass, process_events b prog.noting round s.1 s.2.1 = .done (s'.1, s'.2.1, pass) ∧
    s'.2.2 = s.2.2 ++ [pass]

theorem noted_inj {α : Type} {stop : Bool} {r r' : FullLoop C D P × U × α} (h : noted stop r = noted stop r') :
    r = r' := by
  obtain ⟨⟨registry, flag⟩, u, a⟩ := r
  obtain ⟨⟨registry', flag'⟩, u', a'⟩ := r'
  unfold noted at h
  simp_all

theorem startLoop_stopped {rounds : List (Round A R)} {passes passes' : List (Pass C D)} (hstop : loop.stop = true) :
    startLoop b prog loop u passes rounds = .done (loop', u', passes') ↔
      loop'.stop = true ∧ ∃ taken rest, rounds = taken ++ rest ∧
        Run (Passes b prog) (noted false (loop, u, passes)) taken (noted false (loop', u', passes')) := by
  have hended : startLoop b prog loop u passes rounds = .done (loop, u, passes) := by
    cases rounds <;> exact if_pos hstop
  rw [hended]
  constructor
  · rintro ⟨⟩
    exact ⟨hstop, [], rounds, rfl, .nil⟩
  · rintro ⟨-, taken, rest, heq, hrun⟩
    cases taken with
    | nil => exact congrArg Outcome.done (noted_inj (Run.nil_iff.mp hrun))
    | cons first taken =>
      obtain ⟨s, ⟨hflag, -⟩, -⟩ := Run.cons_iff.mp hrun
      exact absurd hflag (by simp [noted, hstop])

theorem startLoop_iff {rounds : List (Round A R)} {passes passes' : List (Pass C D)} :
    startLoop b prog loop u passes rounds = .done (loop', u', passes') ↔
      loop'.stop = true ∧ ∃ taken rest, rounds = taken ++ rest ∧
        Run (Passes b prog) (noted false (loop, u, passes)) taken (noted false (loop', u', passes')) := by
  induction rounds generalizing loop u passes with
  | nil =>
    by_cases hstop : loop.stop = true
    · exact startLoop_stopped hstop
    · unfold startLoop
      rw [if_neg hstop]
      refine ⟨nofun, ?_⟩
      rintro ⟨hstop', taken, rest, heq, hrun⟩
      obtain ⟨rfl, rfl⟩ := List.append_eq_nil_iff.mp heq.symm
      obtain rfl : loop = loop' := congrArg Prod.fst (noted_inj (Run.nil_iff.mp hrun))
      exact absurd hstop' hstop
  | cons round rounds ih =>
    by_cases hstop : loop.stop = true
    · exact startLoop_stopped hstop
    · have halike := (show (process_events b prog round loop u).Alike _ _ from
        process_events_noting false round loop u).done_iff
      unfold startLoop
      rw [if_neg hstop]
      constructor
      · intro hdone
        obtain ⟨⟨loop₁, u₁, pass⟩, hpass, hdone⟩ := Outcome.bind_eq_done.mp hdone
        obtain ⟨_, hnoting, rfl⟩ := halike.1 _ hpass
        obtain ⟨hstop', taken, rest, rfl, hrun⟩ := ih.mp hdone
        have hfirst : Passes b prog (noted false (loop, u, passes)) round (noted false (loop₁, u₁, passes ++ [pass])) :=
          ⟨Bool.not_eq_true _ ▸ hstop, pass, hnoting, rfl⟩
        exact ⟨hstop', round :: taken, rest, rfl, Run.cons_iff.mpr ⟨_, hfirst, hrun⟩⟩
      · rintro ⟨hstop', taken, rest, heq, hrun⟩
        cases taken with
        | nil =>
          obtain rfl : loop = loop' := congrArg Prod.fst (noted_inj (Run.nil_iff.mp hrun))
          exact absurd hstop' hstop
        | cons first taken =>
          obtain ⟨rfl, rfl⟩ := List.cons.inj heq
          obtain ⟨⟨loop₁, s₁, passes₁⟩, ⟨-, pass, hnoting, hpasses⟩, hrest⟩ := Run.cons_iff.mp hrun
          obtain ⟨⟨loop₂, u₂, pass₂⟩, hpass, hsame⟩ := halike.2 _ hnoting
          cases hsame
          cases hpasses
          rw [hpass, Outcome.done_bind]
          exact ih.mpr ⟨hstop', taken, rest, rfl, hrest⟩

/-- The loop calls `process_events` as it would for a program that does not call `event_loop_stop`, and it returns
after the first call in which the program does. What was asked before it starts is lost. -/
theorem event_loop_start_iff {rounds : List (Round A R)} {passes : List (Pass C D)} :
    event_loop_start b prog loop u rounds = .done (loop', u', passes) ↔
      ∃ taken rest, taken ≠ [] ∧ rounds = taken ++ rest ∧ loop'.stop = true ∧
        Run (Passes b prog) ({ loop with stop := false }, (u, false), []) taken
          ({ loop' with stop := false }, (u', true), passes) := by
  unfold event_loop_start
  rw [startLoop_iff]
  constructor
  · rintro ⟨hstop, taken, rest, heq, hrun⟩
    refine ⟨taken, rest, ?_, heq, hstop, ?_⟩
    · rintro rfl
      have hsame : { loop with stop := false } = loop' := congrArg Prod.fst (noted_inj (Run.nil_iff.mp hrun))
      rw [← hsame] at hstop
      cases hstop
    · unfold noted at hrun
      rw [hstop] at hrun
      exact hrun
  · rintro ⟨taken, rest, -, heq, hstop, hrun⟩
    refine ⟨hstop, taken, rest, heq, ?_⟩
    unfold noted
    rw [hstop]
    exact hrun

end Akio.Loop
