import Akio.Event.Model

/-!
# `event_loop_start` of `kznet/event.c`

Here the callbacks of both kinds run on one loop, and may make any call on it. What a program keeps is a `U`, and
what the system answers while one of its callbacks runs is an `A`. A callback does not look at what its calls on
the loop return.
-/

namespace Akio.Loop

open Event Timer

/-- The record with its field `stop`. -/
structure FullLoop (C D P : Type) extends event_loop C D P where
  stop : Bool

/-- A call on the loop. -/
inductive Effect (C D K : Type) where
  | event (act : Event.Act C D K)
  | timer (act : Timer.Act C D)
  | stop

/-- The callbacks of a program. That of a timer also returns a number. -/
structure Program (C D K U A : Type) where
  event_callback : C → Int → D → A → U → Outcome (U × List (Effect C D K))
  timer_callback : C → D → A → U → Outcome (U × List (Effect C D K) × Int)

variable {C D P K R U A : Type}

def event_loop_stop (loop : FullLoop C D P) : FullLoop C D P := { loop with stop := true }

/-- What one call did to the registry, and the timers it created and deleted. -/
def runEffect (b : Poller C D P K R) (loop : FullLoop C D P) :
    Effect C D K → Outcome (FullLoop C D P × List (Entry C D) × List Nat × List Nat)
  | .event act => do
    let (registry, log) ← Event.runAct b loop.toevent_loop act
    return ({ loop with toevent_loop := registry }, log, [], [])
  | .timer act => do
    let (timers, created, deleted) ← Timer.runAct loop.timers act
    return ({ loop with timers }, [], created, deleted)
  | .stop => return (event_loop_stop loop, [], [], [])

def runEffects (b : Poller C D P K R) (loop : FullLoop C D P) :
    List (Effect C D K) → Outcome (FullLoop C D P × List (Entry C D) × List Nat × List Nat)
  | [] => return (loop, [], [], [])
  | effect :: effects => do
    let (loop, log, created, deleted) ← runEffect b loop effect
    let (loop, log', created', deleted') ← runEffects b loop effects
    return (loop, log ++ log', created ++ created', deleted ++ deleted')

/-! ## The batch -/

/-- `if (ev->event & event & EV_RDABLE) ev->read(loop, fd, ev->data)`, and the same for the other direction. -/
def invoke (b : Poller C D P K R) (prog : Program C D K U A) (answer : A) (loop : FullLoop C D P) (u : U)
    (active : ev_active) (d : Direction) : Outcome (FullLoop C D P × U × List (Entry C D)) := do
  let ev ← getEvent loop.toevent_loop active.fd
  if ev.event &&& active.event &&& d.mask ≠ 0 then
    let cb ← Outcome.ofOption (ev.slot d)
    let data ← Outcome.ofOption ev.data
    let (u, effects) ← prog.event_callback cb active.fd data answer u
    let (loop, log, _) ← runEffects b loop effects
    return (loop, u, .invoked active.fd d cb data :: log)
  else return (loop, u, [])

/-- The loop over `actives`. `answers j d` is for the callback of the entry `j` in the direction `d`. -/
def dispatch (b : Poller C D P K R) (prog : Program C D K U A) (answers : Nat → Direction → A)
    (loop : FullLoop C D P) (u : U) (j : Nat) :
    List ev_active → Outcome (FullLoop C D P × U × List (Entry C D))
  | [] => return (loop, u, [])
  | active :: actives => do
    let (loop, u, log₁) ← invoke b prog (answers j .read) loop u active .read
    let (loop, u, log₂) ← invoke b prog (answers j .write) loop u active .write
    let (loop, u, log₃) ← dispatch b prog answers loop u (j + 1) actives
    return (loop, u, log₁ ++ log₂ ++ log₃)

/-! ## The timers -/

/-- One turn of the loop of `process_time_events` as the system decides it. -/
structure Tick (A : Type) where
  now_msec : Int
  answer : A
  later : Int

/-- The body of the loop, for a timer `te` that is due. -/
def fire (b : Poller C D P K R) (prog : Program C D K U A) (loop : FullLoop C D P) (u : U) (te : Nat)
    (tick : Tick A) : Outcome (FullLoop C D P × U × Fired × List (Entry C D)) := do
  let n ← loop.timers.timers.read te
  let (u, effects, retval) ← prog.timer_callback n.cb n.data tick.answer u
  let (loop, log, created, deleted) ← runEffects b loop effects
  if retval ≤ EV_TIMER_END then
    let (timers, r) ← delete_timer loop.timers te
    return ({ loop with timers }, u,
      ⟨te, n.when_msec, created, deleted, if r = 0 then .removed else .kept⟩, log)
  else
    let armed ← loop.timers.timers.modify te fun n => { n with when_msec := tick.later + retval }
    let (timers, _) ← heap_adjust { loop.timers with timers := armed } te
    return ({ loop with timers }, u, ⟨te, n.when_msec, created, deleted, .rearmed⟩, log)

/-- The loop, which stays `running` where `ticks` does not say how it goes on. -/
def processLoop (b : Poller C D P K R) (prog : Program C D K U A) (loop : FullLoop C D P) (u : U)
    (processed : Int) (fired : List Fired) (log : List (Entry C D)) :
    List (Tick A) → Outcome (FullLoop C D P × U × Int × List Fired × List (Entry C D))
  | [] => do
    let te ← heap_top loop.timers
    if te ≠ none then .running else return (loop, u, processed, fired, log)
  | tick :: ticks => do
    match ← heap_top loop.timers with
    | none => return (loop, u, processed, fired, log)
    | some te =>
      let n ← loop.timers.timers.read te
      if tick.now_msec < n.when_msec then return (loop, u, processed, fired, log)
      let (loop, u, one, log') ← fire b prog loop u te tick
      processLoop b prog loop u (processed + 1) (fired ++ [one]) (log ++ log') ticks

/-! ## The loop -/

/-- What the system decides about one call of `process_events`. `clock` is for `get_shortest_msec`. -/
structure Round (A R : Type) where
  clock : Int
  poll : R
  answers : Nat → Direction → A
  ticks : List (Tick A)

/-- One call of `process_events` as it went. -/
structure Pass (C D : Type) where
  timeout : Int
  processed : Int
  log : List (Entry C D)
  fired : List Fired

def process_events (b : Poller C D P K R) (prog : Program C D K U A) (round : Round A R) (loop : FullLoop C D P)
    (u : U) : Outcome (FullLoop C D P × U × Pass C D) := do
  let timeout ← get_shortest_msec round.clock loop.timers
  let (poller, actives) ← b.poller_poll round.poll loop.toevent_loop timeout
  let (loop, u, log) ← dispatch b prog round.answers { loop with poller } u 0 actives
  let (loop, u, processed, fired, log') ← processLoop b prog loop u actives.length [] [] round.ticks
  return (loop, u, { timeout, processed, log := .reported actives :: log ++ log', fired })

/-- The loop of `event_loop_start`, which stays `running` where `rounds` does not say how it goes on. -/
def startLoop (b : Poller C D P K R) (prog : Program C D K U A) (loop : FullLoop C D P) (u : U)
    (passes : List (Pass C D)) : List (Round A R) → Outcome (FullLoop C D P × U × List (Pass C D))
  | [] => if loop.stop then return (loop, u, passes) else .running
  | round :: rounds => do
    if loop.stop then return (loop, u, passes)
    let (loop, u, pass) ← process_events b prog round loop u
    startLoop b prog loop u (passes ++ [pass]) rounds

def event_loop_start (b : Poller C D P K R) (prog : Program C D K U A) (loop : FullLoop C D P) (u : U)
    (rounds : List (Round A R)) : Outcome (FullLoop C D P × U × List (Pass C D)) :=
  startLoop b prog { loop with stop := false } u [] rounds

end Akio.Loop
