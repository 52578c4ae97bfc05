import Akio.Loop.Model
import Akio.Event.Select
import Akio.Timer.Order

/-!
# The loop and its two halves

The registry and the timers do not see each other. What a call of `process_events` does to the registry is what
the event model does, and what it does to the timers is what the timer model does.
-/

namespace Akio.Loop

open Event Timer

variable {C D P K R U A : Type} {b : Poller C D P K R} {prog : Program C D K U A} {loop loop' : FullLoop C D P}
  {u u' : U} {effects : List (Effect C D K)} {log log' : List (Entry C D)} {created deleted : List Nat}
  {active : ev_active} {actives : List ev_active} {d : Direction} {answer : A} {fired fired' : List Fired}
  {timers : timer_heap C D}

/-- The poller does not look at the timers. -/
structure Blind (b : Poller C D P K R) : Prop where
  addevent : ∀ k (loop : event_loop C D P) timers fd event,
    b.poller_addevent k { loop with timers } fd event = b.poller_addevent k loop fd event
  delevent : ∀ k (loop : event_loop C D P) timers fd event,
    b.poller_delevent k { loop with timers } fd event = b.poller_delevent k loop fd event

theorem epoll_blind : Blind (epoll.build : Poller C D epoll Bool epoll_wait) :=
  ⟨fun _ _ _ _ _ => rfl, fun _ _ _ _ _ => rfl⟩

def Effect.act? : Effect C D K → Option (Event.Act C D K)
  | .event act => some act
  | _ => none

def Effect.timerAct? : Effect C D K → Option (Timer.Act C D)
  | .timer act => some act
  | _ => none

/-! ## The registry with other timers -/

section Registry

variable {loop loop' : event_loop C D P} {act : Event.Act C D K} {acts : List (Event.Act C D K)}

theorem lowerMaxfd_blind (loop : event_loop C D P) (timers : timer_heap C D) (m : Int) (j : Nat) :
    lowerMaxfd { loop with timers } m j = lowerMaxfd loop m j := by
  induction j generalizing m with
  | zero => rfl
  | succ j ih =>
    unfold lowerMaxfd
    rw [getEvent_congr (show ({ loop with timers } : event_loop C D P).events = loop.events from rfl)]
    simp only [ih]

theorem create_event_blind (hb : Blind b) {k : K} {fd : Int} {event : BitVec 32} {cb : C} {data : D} {r : Int}
    (hdone : create_event b k loop fd event cb data = .done (loop', r)) (timers : timer_heap C D) :
    create_event b k { loop with timers } fd event cb data = .done ({ loop' with timers }, r) ∧
      loop'.timers = loop.timers := by
  have hget : getEvent { loop with timers } fd = getEvent loop fd := getEvent_congr rfl
  have hadd := hb.addevent k loop timers fd event
  unfold create_event
  cases create_event_done hdone with
  | refused hfd => exact ⟨if_pos hfd, rfl⟩
  | failed hfd hget' hadd' hq =>
    rw [if_neg hfd, hget, hget', Outcome.done_bind, hadd, hadd', Outcome.done_bind]
    exact ⟨if_pos hq, rfl⟩
  | @added poller ev hfd hget' hadd' =>
    rw [if_neg hfd, hget, hget', Outcome.done_bind, hadd, hadd', Outcome.done_bind]
    have hset : getEvent { loop with timers, poller } fd = .done ev := hget'
    dsimp only
    rw [if_neg (by simp), setEvent_of_get hset]
    exact ⟨rfl, rfl⟩

theorem delete_event_blind (hb : Blind b) {k : K} {fd : Int} {event : BitVec 32} {r : Int}
    (hdone : delete_event b k loop fd event = .done (loop', r)) (timers : timer_heap C D) :
    delete_event b k { loop with timers } fd event = .done ({ loop' with timers }, r) ∧
      loop'.timers = loop.timers := by
  have hget : getEvent { loop with timers } fd = getEvent loop fd := getEvent_congr rfl
  have hdel := hb.delevent k loop timers fd event
  unfold delete_event
  cases delete_event_done hdone with
  | refused hfd => exact ⟨if_pos hfd, rfl⟩
  | absent hfd hget' hnone =>
    rw [if_neg (by show ¬ fd ≥ loop.setsize; omega), hget, hget', Outcome.done_bind]
    exact ⟨if_pos hnone, rfl⟩
  | failed hfd hget' hsome hdel' hq =>
    rw [if_neg (by show ¬ fd ≥ loop.setsize; omega), hget, hget', Outcome.done_bind, if_neg hsome, hdel, hdel',
      Outcome.done_bind]
    exact ⟨if_pos hq, rfl⟩
  | @removed poller ev m hfd hget' hsome hdel' hkeep hlower =>
    have hset : getEvent { loop with timers, poller } fd = .done ev := hget'
    rw [if_neg (by show ¬ fd ≥ loop.setsize; omega), hget, hget', Outcome.done_bind, if_neg hsome, hdel, hdel',
      Outcome.done_bind]
    dsimp only
    rw [if_neg (by simp), setEvent_of_get hset, Outcome.done_bind]
    dsimp only
    by_cases hlast : fd = loop.maxfd ∧ ev.event &&& ~~~event = EV_NONE
    · rw [if_pos hlast]
      let events := loop.events.set fd.toNat { ev with event := ev.event &&& ~~~event }
      have hblind := lowerMaxfd_blind { loop with poller, events } timers loop.maxfd loop.maxfd.toNat
      have hsame := hblind.trans (hlower hlast)
      exact ⟨(congrArg (· >>= _) hsame).trans rfl, rfl⟩
    · rw [if_neg hlast, hkeep hlast]
      exact ⟨rfl, rfl⟩

theorem runAct_blind (hb : Blind b) (hdone : Event.runAct b loop act = .done (loop', log))
    (timers : timer_heap C D) :
    Event.runAct b { loop with timers } act = .done ({ loop' with timers }, log) ∧ loop'.timers = loop.timers := by
  unfold Event.runAct at hdone ⊢
  cases act with
  | create k fd event cb data =>
    obtain ⟨⟨loop₁, r⟩, hcreate, hpure⟩ := Outcome.bind_eq_done.mp hdone
    obtain ⟨rfl, rfl⟩ := Prod.mk.inj (Outcome.done.inj hpure)
    obtain ⟨hblind, hsame⟩ := create_event_blind hb hcreate timers
    exact ⟨(congrArg (· >>= _) hblind).trans rfl, hsame⟩
  | delete k fd event =>
    obtain ⟨⟨loop₁, r⟩, hdelete, hpure⟩ := Outcome.bind_eq_done.mp hdone
    obtain ⟨rfl, rfl⟩ := Prod.mk.inj (Outcome.done.inj hpure)
    obtain ⟨hblind, hsame⟩ := delete_event_blind hb hdelete timers
    exact ⟨(congrArg (· >>= _) hblind).trans rfl, hsame⟩

end Registry

/-! ## A callback -/

/-- The calls on the registry and those on the timers, each in their order. -/
def acts (effects : List (Effect C D K)) : List (Event.Act C D K) := effects.filterMap Effect.act?

def timerActs (effects : List (Effect C D K)) : List (Timer.Act C D) := effects.filterMap Effect.timerAct?

/-- The registry of the loop, with `timers` for the heap. -/
abbrev registry (loop : FullLoop C D P) (timers : timer_heap C D) : event_loop C D P :=
  { loop.toevent_loop with timers }

theorem event_run_cons {loop loop₁ loop' : event_loop C D P} {act : Event.Act C D K} {acts : List (Event.Act C D K)}
    (hact : Event.runAct b loop act = .done (loop₁, log))
    (hrest : Event.runCallback b loop₁ acts = .done (loop', log')) :
    Event.runCallback b loop (act :: acts) = .done (loop', log ++ log') := by
  unfold Event.runCallback
  rw [hact, Outcome.done_bind]
  dsimp only
  rw [hrest]
  rfl

theorem timer_run_cons {heap heap₁ heap' : timer_heap C D} {act : Timer.Act C D} {acts : List (Timer.Act C D)}
    {created' deleted' : List Nat} (hact : Timer.runAct heap act = .done (heap₁, created, deleted))
    (hrest : Timer.runCallback heap₁ acts = .done (heap', created', deleted')) :
    Timer.runCallback heap (act :: acts) = .done (heap', created ++ created', deleted ++ deleted') := by
  unfold Timer.runCallback
  rw [hact, Outcome.done_bind]
  dsimp only
  rw [hrest]
  rfl

theorem runEffects_refines (hb : Blind b)
    (hdone : runEffects b loop effects = .done (loop', log, created, deleted)) :
    (∀ timers, Event.runCallback b (registry loop timers) (acts effects) = .done (registry loop' timers, log)) ∧
    Timer.runCallback loop.timers (timerActs effects) = .done (loop'.timers, created, deleted) := by
  induction effects generalizing loop log created deleted with
  | nil =>
    cases hdone
    exact ⟨fun _ => rfl, rfl⟩
  | cons effect effects ih =>
    obtain ⟨⟨loop₁, log₁, created₁, deleted₁⟩, hone, hdone⟩ := Outcome.bind_eq_done.mp hdone
    obtain ⟨⟨loop₂, log₂, created₂, deleted₂⟩, hrest, hpure⟩ := Outcome.bind_eq_done.mp hdone
    cases hpure
    obtain ⟨hregistry, htimers⟩ := ih hrest
    cases effect with
    | event act =>
      obtain ⟨⟨registry₁, log₁'⟩, hact, hpure⟩ := Outcome.bind_eq_done.mp hone
      cases hpure
      have hblind := runAct_blind hb hact
      refine ⟨fun timers => ?_, ?_⟩
      · exact event_run_cons (hblind timers).1 (hregistry timers)
      · rw [← (hblind loop.timers).2]
        exact htimers
    | timer act =>
      obtain ⟨⟨timers₁, created₁', deleted₁'⟩, hact, hpure⟩ := Outcome.bind_eq_done.mp hone
      cases hpure
      exact ⟨hregistry, timer_run_cons hact htimers⟩
    | stop =>
      cases hone
      exact ⟨hregistry, htimers⟩

/-! ## The batch -/

theorem invoke_refines (hb : Blind b) (hdone : invoke b prog answer loop u active d = .done (loop', u', log)) :
    ∃ effects created deleted,
      (∀ timers, Event.invoke b (registry loop timers) active d (acts effects) = .done (registry loop' timers, log)) ∧
      Timer.runCallback loop.timers (timerActs effects) = .done (loop'.timers, created, deleted) := by
  obtain ⟨ev, hget, hdone⟩ := Outcome.bind_eq_done.mp hdone
  have hget' (timers) : getEvent (registry loop timers) active.fd = .done ev := hget
  by_cases hcall : ev.event &&& active.event &&& d.mask ≠ 0
  · rw [if_pos hcall] at hdone
    obtain ⟨cb, hslot, hdone⟩ := Outcome.bind_eq_done.mp hdone
    obtain ⟨data, hdata, hdone⟩ := Outcome.bind_eq_done.mp hdone
    obtain ⟨⟨u₁, effects⟩, -, hdone⟩ := Outcome.bind_eq_done.mp hdone
    obtain ⟨⟨loop₁, log₁, created, deleted⟩, hrun, hpure⟩ := Outcome.bind_eq_done.mp hdone
    cases hpure
    obtain ⟨hregistry, htimers⟩ := runEffects_refines hb hrun
    refine ⟨effects, created, deleted, fun timers => ?_, htimers⟩
    unfold Event.invoke
    rw [hget' timers, Outcome.done_bind, if_pos hcall, hslot, Outcome.done_bind, hdata, Outcome.done_bind,
      hregistry timers]
    rfl
  · rw [if_neg hcall] at hdone
    cases hdone
    refine ⟨[], [], [], fun timers => ?_, rfl⟩
    unfold Event.invoke
    rw [hget' timers, Outcome.done_bind, if_neg hcall]
    rfl

theorem dispatch_congr {behave behave' : Nat → Direction → List (Event.Act C D K)} {j : Nat}
    (h : ∀ i, j ≤ i → behave i = behave' i) (loop : event_loop C D P) :
    Event.dispatch b behave loop j actives = Event.dispatch b behave' loop j actives := by
  induction actives generalizing loop j with
  | nil => rfl
  | cons active actives ih =>
    unfold Event.dispatch
    have hrest : ∀ loop, Event.dispatch b behave loop (j + 1) actives = Event.dispatch b behave' loop (j + 1) actives :=
      fun loop => ih (fun i hi => h i (by omega)) loop
    rw [h j (Nat.le_refl j)]
    simp only [hrest]

theorem timer_run_append {heap heap₁ heap₂ : timer_heap C D} {first second : List (Timer.Act C D)}
    {created₁ deleted₁ created₂ deleted₂ : List Nat}
    (h₁ : Timer.runCallback heap first = .done (heap₁, created₁, deleted₁))
    (h₂ : Timer.runCallback heap₁ second = .done (heap₂, created₂, deleted₂)) :
    Timer.runCallback heap (first ++ second) = .done (heap₂, created₁ ++ created₂, deleted₁ ++ deleted₂) := by
  induction first generalizing heap created₁ deleted₁ with
  | nil =>
    cases h₁
    exact h₂
  | cons act first ih =>
    obtain ⟨⟨heap₃, created₃, deleted₃⟩, hact, h₁⟩ := Outcome.bind_eq_done.mp h₁
    obtain ⟨⟨heap₄, created₄, deleted₄⟩, hrest, hpure⟩ := Outcome.bind_eq_done.mp h₁
    cases hpure
    rw [List.cons_append, List.append_assoc, List.append_assoc]
    exact timer_run_cons hact (ih hrest)

theorem dispatch_refines {answers : Nat → Direction → A} {j : Nat} (hb : Blind b)
    (hdone : dispatch b prog answers loop u j actives = .done (loop', u', log)) :
    ∃ behave done created deleted,
      (∀ timers, Event.dispatch b behave (registry loop timers) j actives = .done (registry loop' timers, log)) ∧
      Timer.runCallback loop.timers done = .done (loop'.timers, created, deleted) := by
  induction actives generalizing loop u j log with
  | nil =>
    cases hdone
    exact ⟨fun _ _ => [], [], [], [], fun _ => rfl, rfl⟩
  | cons active actives ih =>
    obtain ⟨⟨loop₁, u₁, log₁⟩, hread, hdone⟩ := Outcome.bind_eq_done.mp hdone
    obtain ⟨⟨loop₂, u₂, log₂⟩, hwrite, hdone⟩ := Outcome.bind_eq_done.mp hdone
    obtain ⟨⟨loop₃, u₃, log₃⟩, hrest, hpure⟩ := Outcome.bind_eq_done.mp hdone
    cases hpure
    obtain ⟨reads, created₁, deleted₁, hread, htimers₁⟩ := invoke_refines hb hread
    obtain ⟨writes, created₂, deleted₂, hwrite, htimers₂⟩ := invoke_refines hb hwrite
    obtain ⟨behave, done, created₃, deleted₃, hrest, htimers₃⟩ := ih hrest
    let behave' : Nat → Direction → List (Event.Act C D K) :=
      Function.update behave j fun d => if d = .read then acts reads else acts writes
    refine ⟨behave', _, _, _, fun timers => ?_, timer_run_append (timer_run_append htimers₁ htimers₂) htimers₃⟩
    have hread' : behave' j .read = acts reads := congrFun (Function.update_self j _ behave) .read
    have hwrite' : behave' j .write = acts writes := congrFun (Function.update_self j _ behave) .write
    have hsame : ∀ i, j + 1 ≤ i → behave' i = behave i := fun i hi => Function.update_of_ne (by omega) _ behave
    have hrest' := (dispatch_congr (b := b) hsame (registry loop₂ timers)).trans (hrest timers)
    unfold Event.dispatch
    rw [hread', hread timers, Outcome.done_bind]
    dsimp only
    rw [hwrite', hwrite timers, Outcome.done_bind]
    exact (congrArg (· >>= _) hrest').trans rfl

/-! ## The timers -/

/-- The turn of the timer model for a tick. -/
def Tick.turn (tick : Tick A) (effects : List (Effect C D K)) (retval : Int) : Turn C D where
  now_msec := tick.now_msec
  acts := timerActs effects
  retval := retval
  later := tick.later

theorem fire_refines {te : Nat} {tick : Tick A} {one : Fired} (hb : Blind b)
    (hdone : fire b prog loop u te tick = .done (loop', u', one, log)) :
    ∃ (effects : List (Effect C D K)) (retval : Int),
      Timer.fire loop.timers te (tick.turn effects retval) = .done (loop'.timers, one) ∧
      ∀ timers, Event.runCallback b (registry loop timers) (acts effects) = .done (registry loop' timers, log) := by
  obtain ⟨n, hread, hdone⟩ := Outcome.bind_eq_done.mp hdone
  obtain ⟨⟨u₁, effects, retval⟩, -, hdone⟩ := Outcome.bind_eq_done.mp hdone
  obtain ⟨⟨loop₁, log₁, created, deleted⟩, hrun, hdone⟩ := Outcome.bind_eq_done.mp hdone
  obtain ⟨hregistry, htimers⟩ := runEffects_refines hb hrun
  refine ⟨effects, retval, ?_, ?_⟩
  · unfold Timer.fire
    rw [hread, Outcome.done_bind, show (tick.turn effects retval).acts = timerActs effects from rfl, htimers,
      Outcome.done_bind]
    dsimp only at hdone ⊢
    by_cases hstop : retval ≤ EV_TIMER_END
    · rw [if_pos hstop] at hdone
      obtain ⟨⟨timers, r⟩, hdelete, hpure⟩ := Outcome.bind_eq_done.mp hdone
      cases hpure
      refine (if_pos hstop).trans ?_
      rw [hdelete]
      rfl
    · rw [if_neg hstop] at hdone
      obtain ⟨armed, hmodify, hdone⟩ := Outcome.bind_eq_done.mp hdone
      obtain ⟨⟨timers, r⟩, hadjust, hpure⟩ := Outcome.bind_eq_done.mp hdone
      cases hpure
      refine (if_neg hstop).trans ?_
      refine (congrArg (· >>= _) hmodify).trans ?_
      rw [Outcome.done_bind, hadjust]
      rfl
  · dsimp only at hdone
    split_ifs at hdone
    · obtain ⟨⟨timers, r⟩, -, hpure⟩ := Outcome.bind_eq_done.mp hdone
      cases hpure
      exact hregistry
    · obtain ⟨armed, -, hdone⟩ := Outcome.bind_eq_done.mp hdone
      obtain ⟨⟨timers, r⟩, -, hpure⟩ := Outcome.bind_eq_done.mp hdone
      cases hpure
      exact hregistry

/-- The clock as `process_time_events` reads it itself. -/
def Tick.clocks (tick : Tick A) : Int × Int := (tick.now_msec, tick.later)

/-- The turns go by the same clock. -/
def SameClocks (turns : List (Turn C D)) (ticks : List (Tick A)) : Prop :=
  turns.map (fun turn => (turn.now_msec, turn.later)) = ticks.map Tick.clocks

theorem idle_turns (ticks : List (Tick A)) : ∃ turns : List (Turn C D), SameClocks turns ticks := by
  refine ⟨ticks.map fun tick => tick.turn ([] : List (Effect C D Unit)) 0, ?_⟩
  unfold SameClocks
  rw [List.map_map]
  rfl

theorem SameClocks.cons {turn : Turn C D} {turns : List (Turn C D)} {tick : Tick A} {ticks : List (Tick A)}
    (hone : (turn.now_msec, turn.later) = tick.clocks) (hrest : SameClocks turns ticks) :
    SameClocks (turn :: turns) (tick :: ticks) := by
  unfold SameClocks at *
  rw [List.map_cons, List.map_cons, hone, hrest]

theorem event_run_append {loop loop₁ loop' : event_loop C D P} {first second : List (Event.Act C D K)}
    (h₁ : Event.runCallback b loop first = .done (loop₁, log))
    (h₂ : Event.runCallback b loop₁ second = .done (loop', log')) :
    Event.runCallback b loop (first ++ second) = .done (loop', log ++ log') := by
  induction first generalizing loop log with
  | nil =>
    cases h₁
    exact h₂
  | cons act first ih =>
    obtain ⟨⟨loop₂, log₂⟩, hact, h₁⟩ := Outcome.bind_eq_done.mp h₁
    obtain ⟨⟨loop₃, log₃⟩, hrest, hpure⟩ := Outcome.bind_eq_done.mp h₁
    cases hpure
    rw [List.cons_append, List.append_assoc]
    exact event_run_cons hact (ih hrest)

theorem processLoop_refines {ticks : List (Tick A)} {processed processed' : Int} (hb : Blind b)
    (hdone : processLoop b prog loop u processed fired log ticks = .done (loop', u', processed', fired', log')) :
    ∃ (turns : List (Turn C D)) (done : List (Event.Act C D K)) (after : List (Entry C D)),
      SameClocks turns ticks ∧
      Timer.processLoop loop.timers processed fired turns = .done (loop'.timers, processed', fired') ∧
      (∀ timers, Event.runCallback b (registry loop timers) done = .done (registry loop' timers, after)) ∧
      log' = log ++ after := by
  induction ticks generalizing loop u processed fired log with
  | nil =>
    obtain ⟨te, htop, hdone⟩ := Outcome.bind_eq_done.mp hdone
    split_ifs at hdone with hsome
    cases hdone
    refine ⟨[], [], [], rfl, ?_, fun _ => rfl, (List.append_nil _).symm⟩
    unfold Timer.processLoop
    rw [htop, Outcome.done_bind, if_neg hsome]
    rfl
  | cons tick ticks ih =>
    obtain ⟨te, htop, hdone⟩ := Outcome.bind_eq_done.mp hdone
    obtain ⟨idle, hidle⟩ := idle_turns (C := C) (D := D) ticks
    -- A loop that ends here does not use the turn.
    let unused : Turn C D := ⟨tick.now_msec, [], 0, tick.later⟩
    cases te with
    | none =>
      cases hdone
      refine ⟨unused :: idle, [], [], hidle.cons rfl, ?_, fun _ => rfl, (List.append_nil _).symm⟩
      unfold Timer.processLoop
      rw [htop]
      rfl
    | some te =>
      obtain ⟨n, hread, hdone⟩ := Outcome.bind_eq_done.mp hdone
      by_cases hearly : tick.now_msec < n.when_msec
      · rw [if_pos hearly] at hdone
        cases hdone
        refine ⟨unused :: idle, [], [], hidle.cons rfl, ?_, fun _ => rfl, (List.append_nil _).symm⟩
        unfold Timer.processLoop
        rw [htop, Outcome.done_bind]
        dsimp only
        rw [hread, Outcome.done_bind, if_pos hearly]
        rfl
      · rw [if_neg hearly] at hdone
        obtain ⟨⟨loop₁, u₁, one, log₁⟩, hfire, hdone⟩ := Outcome.bind_eq_done.mp hdone
        obtain ⟨effects, retval, hturn, hregistry₁⟩ := fire_refines hb hfire
        obtain ⟨turns, done, after, hclocks, hloop, hregistry, rfl⟩ := ih hdone
        refine ⟨tick.turn effects retval :: turns, acts effects ++ done, log₁ ++ after, hclocks.cons rfl, ?_,
          fun timers => event_run_append (hregistry₁ timers) (hregistry timers), by rw [List.append_assoc]⟩
        unfold Timer.processLoop
        have hnow : ¬ (tick.turn effects retval).now_msec < n.when_msec := hearly
        rw [htop, Outcome.done_bind]
        dsimp only
        rw [hread, Outcome.done_bind, if_neg hnow, hturn]
        exact hloop

theorem processLoop_shift {heap heap' : timer_heap C D} {turns : List (Turn C D)} {processed processed' : Int}
    (hdone : Timer.processLoop heap processed fired turns = .done (heap', processed', fired')) (k : Int) :
    Timer.processLoop heap (processed + k) fired turns = .done (heap', processed' + k, fired') := by
  induction turns generalizing heap processed fired with
  | nil =>
    obtain ⟨te, htop, hdone⟩ := Outcome.bind_eq_done.mp hdone
    split_ifs at hdone with hsome
    cases hdone
    unfold Timer.processLoop
    rw [htop, Outcome.done_bind, if_neg hsome]
    rfl
  | cons turn turns ih =>
    obtain ⟨te, htop, hdone⟩ := Outcome.bind_eq_done.mp hdone
    unfold Timer.processLoop
    rw [htop, Outcome.done_bind]
    cases te with
    | none =>
      cases hdone
      rfl
    | some te =>
      obtain ⟨n, hread, hdone⟩ := Outcome.bind_eq_done.mp hdone
      dsimp only
      rw [hread, Outcome.done_bind]
      split_ifs at hdone ⊢
      · cases hdone
        rfl
      · obtain ⟨⟨heap₁, one⟩, hfire, hdone⟩ := Outcome.bind_eq_done.mp hdone
        rw [hfire, Outcome.done_bind]
        dsimp only
        rw [show processed + k + 1 = processed + 1 + k by omega]
        exact ih hdone

/-! ## `process_events` -/

/-- The registry goes through a batch, and then through what the callbacks of the timers do to it. -/
def RegistryGoes (b : Poller C D P K R) (round : Round A R) (loop loop' : FullLoop C D P) (log : List (Entry C D))
    (n : Int) : Prop :=
  ∃ behave registry₁ first done rest,
    processActives b round.clock round.poll behave loop.toevent_loop = .done (registry₁, n, first) ∧
    Event.runCallback b registry₁ done = .done (registry loop' loop.timers, rest) ∧ log = first ++ rest

/-- The callbacks of the batch leave the loop `batch`, and its timers go through a call of `process_time_events`. -/
def TimersGo (b : Poller C D P K R) (prog : Program C D K U A) (round : Round A R) (loop : FullLoop C D P) (u : U)
    (loop' : FullLoop C D P) (pass : Pass C D) (m : Int) : Prop :=
  ∃ poller actives batch u₁ log, b.poller_poll round.poll loop.toevent_loop pass.timeout = .done (poller, actives) ∧
    dispatch b prog round.answers { loop with poller } u 0 actives = .done (batch, u₁, log) ∧
    (∃ done created deleted, Timer.runCallback loop.timers done = .done (batch.timers, created, deleted)) ∧
    ∃ turns, SameClocks turns round.ticks ∧
      Timer.process_time_events turns batch.timers = .done (loop'.timers, m, pass.fired)

theorem process_events_refines {round : Round A R} {pass : Pass C D} (hb : Blind b)
    (hdone : process_events b prog round loop u = .done (loop', u', pass)) :
    get_shortest_msec round.clock loop.timers = .done pass.timeout ∧
      ∃ n m, RegistryGoes b round loop loop' pass.log n ∧ TimersGo b prog round loop u loop' pass m ∧
        pass.processed = n + m := by
  obtain ⟨timeout, htimeout, hdone⟩ := Outcome.bind_eq_done.mp hdone
  obtain ⟨⟨poller, actives⟩, hpoll, hdone⟩ := Outcome.bind_eq_done.mp hdone
  obtain ⟨⟨loop₁, u₁, log⟩, hdispatch, hdone⟩ := Outcome.bind_eq_done.mp hdone
  obtain ⟨⟨loop₂, u₂, processed, fired, log'⟩, hloop, hpure⟩ := Outcome.bind_eq_done.mp hdone
  cases hpure
  obtain ⟨behave, before, created, deleted, hbatch, hbefore⟩ := dispatch_refines hb hdispatch
  obtain ⟨turns, done, after, hclocks, hturns, hregistry, hafter⟩ := processLoop_refines hb hloop
  have hactives : processActives b round.clock round.poll behave loop.toevent_loop =
      .done (registry loop₁ loop.timers, actives.length, .reported actives :: log) := by
    unfold processActives
    rw [htimeout, Outcome.done_bind, hpoll, Outcome.done_bind]
    exact (congrArg (· >>= _) (hbatch loop.timers)).trans rfl
  have hfired := processLoop_shift hturns (-actives.length)
  rw [Int.add_right_neg] at hfired
  refine ⟨htimeout, actives.length, processed + -actives.length, ?_, ?_, by dsimp only; omega⟩
  · exact ⟨behave, _, _, done, after, hactives, hregistry loop.timers, congrArg (.reported actives :: log ++ ·) hafter⟩
  · exact ⟨poller, actives, loop₁, u₁, log, hpoll, hdispatch, ⟨before, created, deleted, hbefore⟩, turns, hclocks,
      hfired⟩

end Akio.Loop
