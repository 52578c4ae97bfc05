import Akio.Timer.Model

/-!
# The event loop of `kznet/event.c`

An index outside `events` or `actives` is a fault, and so is a call of a pointer that was never set: what
`malloc` leaves in an entry is `none`. The poller is the one of a build. A callback is what it does to the
registry; what it does to the timers does not come into it. The functions also return what happened, in order.
-/

namespace Akio.Event

open Timer

def EV_NONE : BitVec 32 := 0#32
def EV_RDABLE : BitVec 32 := 1#32
def EV_WRABLE : BitVec 32 := 2#32

structure ev_event (C D : Type) where
  event : BitVec 32
  data : Option D
  read : Option C
  write : Option C

structure ev_active where
  fd : Int
  event : BitVec 32
deriving DecidableEq, Repr

structure event_loop (C D P : Type) where
  maxfd : Int
  setsize : Int
  events : List (ev_event C D)
  poller : P
  timers : timer_heap C D

variable {C D P K R : Type}

/-- `malloc` answers for the record and the two arrays. It has no room for a negative number of entries. -/
def event_loop_create (malloc : Bool) (poller : Option P) (timers : Option (timer_heap C D)) (maxevents : Int) :
    Option (event_loop C D P) :=
  if !malloc ∨ maxevents < 0 then none
  else do
    let timers ← timers
    let poller ← poller
    some
      { maxfd := -1, setsize := maxevents, poller, timers
        events := List.replicate maxevents.toNat { event := EV_NONE, data := none, read := none, write := none } }

/-- `loop->events[fd]` -/
def getEvent (loop : event_loop C D P) (fd : Int) : Outcome (ev_event C D) :=
  if 0 ≤ fd then Outcome.ofOption loop.events[fd.toNat]? else .fault

def setEvent (loop : event_loop C D P) (fd : Int) (ev : ev_event C D) : Outcome (event_loop C D P) :=
  if 0 ≤ fd ∧ fd.toNat < loop.events.length then .done { loop with events := loop.events.set fd.toNat ev }
  else .fault

/-- The functions of `poller.c` that a build links. `K` is what the kernel answers when the registry changes,
and `R` what it answers to a poll. On a loop of a size that the poller serves, they return where the
descriptor has an entry. -/
structure Poller (C D P K R : Type) where
  poller_addevent : K → event_loop C D P → Int → BitVec 32 → Outcome (P × Int)
  poller_delevent : K → event_loop C D P → Int → BitVec 32 → Outcome (P × Int)
  poller_poll : R → event_loop C D P → Int → Outcome (P × List ev_active)
  serves : Int → Prop
  add_returns : ∀ {loop fd ev}, serves loop.setsize → fd < loop.setsize → getEvent loop fd = .done ev →
    ∀ k event, ∃ r, poller_addevent k loop fd event = .done r
  del_returns : ∀ {loop fd ev}, serves loop.setsize → fd < loop.setsize → getEvent loop fd = .done ev →
    ∀ k event, ∃ r, poller_delevent k loop fd event = .done r

/-! ## The registry -/

def create_event (b : Poller C D P K R) (k : K) (loop : event_loop C D P) (fd : Int) (event : BitVec 32)
    (cb : C) (data : D) : Outcome (event_loop C D P × Int) := do
  if fd < 1 ∨ fd ≥ loop.setsize then return (loop, -1)
  let ev ← getEvent loop fd
  let (poller, r) ← b.poller_addevent k loop fd event
  if r ≠ 0 then return ({ loop with poller }, -1)
  let loop ← setEvent { loop with poller } fd
    { event := ev.event ||| event
      read := if event &&& EV_RDABLE ≠ 0 then some cb else ev.read
      write := if event &&& EV_WRABLE ≠ 0 then some cb else ev.write
      data := some data }
  return ({ loop with maxfd := if fd > loop.maxfd then fd else loop.maxfd }, 0)

/-- The loop that updates the max fd, from `j - 1` down. -/
def lowerMaxfd (loop : event_loop C D P) (maxfd : Int) : Nat → Outcome Int
  | 0 => return maxfd
  | j + 1 => do
    let ev ← getEvent loop j
    if ev.event ≠ EV_NONE then return maxfd
    lowerMaxfd loop j j

def delete_event (b : Poller C D P K R) (k : K) (loop : event_loop C D P) (fd : Int) (event : BitVec 32) :
    Outcome (event_loop C D P × Int) := do
  if fd ≥ loop.setsize then return (loop, -1)
  let ev ← getEvent loop fd
  if ev.event = EV_NONE then return (loop, 0)
  let (poller, r) ← b.poller_delevent k loop fd event
  if r ≠ 0 then return ({ loop with poller }, -1)
  let ev := { ev with event := ev.event &&& ~~~event }
  let loop ← setEvent { loop with poller } fd ev
  if fd = loop.maxfd ∧ ev.event = EV_NONE then
    let maxfd ← lowerMaxfd loop loop.maxfd loop.maxfd.toNat
    return ({ loop with maxfd }, 0)
  else return (loop, 0)

/-! ## `process_events` -/

inductive Direction where
  | read
  | write
deriving DecidableEq, Repr

def Direction.mask : Direction → BitVec 32
  | .read => EV_RDABLE
  | .write => EV_WRABLE

def ev_event.slot (ev : ev_event C D) : Direction → Option C
  | .read => ev.read
  | .write => ev.write

/-- What happened: a `create_event` or a `delete_event` that returned 0, a poll, a call of a callback. -/
inductive Entry (C D : Type) where
  | created (fd : Int) (event : BitVec 32) (cb : C)
  | deleted (fd : Int) (event : BitVec 32)
  | reported (actives : List ev_active)
  | invoked (fd : Int) (d : Direction) (cb : C) (data : D)

/-- What a callback may do with the registry. -/
inductive Act (C D K : Type) where
  | create (k : K) (fd : Int) (event : BitVec 32) (cb : C) (data : D)
  | delete (k : K) (fd : Int) (event : BitVec 32)

def runAct (b : Poller C D P K R) (loop : event_loop C D P) :
    Act C D K → Outcome (event_loop C D P × List (Entry C D))
  | .create k fd event cb data => do
    let (loop, r) ← create_event b k loop fd event cb data
    return (loop, if r = 0 then [.created fd event cb] else [])
  | .delete k fd event => do
    let (loop, r) ← delete_event b k loop fd event
    return (loop, if r = 0 then [.deleted fd event] else [])

def runCallback (b : Poller C D P K R) (loop : event_loop C D P) :
    List (Act C D K) → Outcome (event_loop C D P × List (Entry C D))
  | [] => return (loop, [])
  | act :: acts => do
    let (loop, log) ← runAct b loop act
    let (loop, log') ← runCallback b loop acts
    return (loop, log ++ log')

/-- `if (ev->event & event & EV_RDABLE) ev->read(loop, fd, ev->data)`, and the same for the other direction.
`acts` is what the callback does. -/
def invoke (b : Poller C D P K R) (loop : event_loop C D P) (active : ev_active) (d : Direction)
    (acts : List (Act C D K)) : Outcome (event_loop C D P × List (Entry C D)) := do
  let ev ← getEvent loop active.fd
  if ev.event &&& active.event &&& d.mask ≠ 0 then
    let cb ← Outcome.ofOption (ev.slot d)
    let data ← Outcome.ofOption ev.data
    let (loop, log) ← runCallback b loop acts
    return (loop, .invoked active.fd d cb data :: log)
  else return (loop, [])

/-- The loop over `actives`. `behave j d` is what the callback called for the entry `j` in the direction `d`
does. -/
def dispatch (b : Poller C D P K R) (behave : Nat → Direction → List (Act C D K)) (loop : event_loop C D P)
    (j : Nat) : List ev_active → Outcome (event_loop C D P × List (Entry C D))
  | [] => return (loop, [])
  | active :: actives => do
    let (loop, log₁) ← invoke b loop active .read (behave j .read)
    let (loop, log₂) ← invoke b loop active .write (behave j .write)
    let (loop, log₃) ← dispatch b behave loop (j + 1) actives
    return (loop, log₁ ++ log₂ ++ log₃)

/-- The part of `process_events` before `process_time_events`, which is a call of its own here. `clock` is what
`get_now_time` reads. -/
def processActives (b : Poller C D P K R) (clock : Int) (r : R) (behave : Nat → Direction → List (Act C D K))
    (loop : event_loop C D P) : Outcome (event_loop C D P × Int × List (Entry C D)) := do
  let timeout ← get_shortest_msec clock loop.timers
  let (poller, actives) ← b.poller_poll r loop timeout
  let (loop, log) ← dispatch b behave { loop with poller } 0 actives
  return (loop, actives.length, .reported actives :: log)

end Akio.Event
