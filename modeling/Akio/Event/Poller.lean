import Akio.Event.Registry

/-!
# The two builds of `kznet/poller.c`

The kernel's side of a poll is a function of what the poller passes to it.
-/

namespace Akio.Event

variable {C D : Type}

/-- `loop->actives[numevents] = active`, for the next `numevents`. -/
def addActive {P : Type} (loop : event_loop C D P) (actives : List ev_active) (active : ev_active) :
    Outcome (List ev_active) :=
  if actives.length < loop.setsize then .done (actives ++ [active]) else .fault

/-! ## epoll -/

def EPOLLIN : BitVec 32 := 1#32
def EPOLLOUT : BitVec 32 := 4#32
def EPOLLERR : BitVec 32 := 8#32
def EPOLLHUP : BitVec 32 := 16#32

inductive EPOLL_CTL where
  | ADD
  | MOD
  | DEL
deriving DecidableEq, Repr

structure epoll_event where
  events : BitVec 32
  fd : Int
deriving DecidableEq, Repr

/-- A call of `epoll_ctl`, and whether it found the descriptor in the set. -/
structure Ctl where
  op : EPOLL_CTL
  fd : Int
  present : Bool

/-- `ADD` is for a descriptor that is not in the set, `MOD` and `DEL` for one that is. -/
def Ctl.legal (c : Ctl) : Bool :=
  match c.op with
  | .ADD => !c.present
  | .MOD | .DEL => c.present

/-- What the kernel is to watch, and the calls that told it so. -/
structure epoll where
  interest : Int → Option epoll_event
  ctls : List Ctl

/-- The kernel may have a further reason to fail, and is then not `willing`. -/
def epoll_ctl (willing : Bool) (poller : epoll) (op : EPOLL_CTL) (fd : Int) (ee : epoll_event) : epoll × Int :=
  let ctl : Ctl := { op, fd, present := (poller.interest fd).isSome }
  let ctls := poller.ctls ++ [ctl]
  if willing ∧ ctl.legal then
    ({ ctls, interest := Function.update poller.interest fd (if op = .DEL then none else some ee) }, 0)
  else ({ poller with ctls }, -1)

/-- What `epoll_wait` answers, for a set, `maxevents` and `timeout`. It may wait for ever. -/
abbrev epoll_wait := (Int → Option epoll_event) → Int → Int → Option (List epoll_event)

namespace epoll

/-- `malloc` and `epoll_create` answer. -/
def poller_create (malloc : Bool) : Option epoll :=
  if malloc then some { interest := fun _ => none, ctls := [] } else none

/-- `ee.events` for what is registered. -/
def flags (event : BitVec 32) : BitVec 32 :=
  (if event &&& EV_RDABLE ≠ 0 then EPOLLIN else 0) ||| (if event &&& EV_WRABLE ≠ 0 then EPOLLOUT else 0)

def poller_addevent (willing : Bool) (loop : event_loop C D epoll) (fd : Int) (event : BitVec 32) :
    Outcome (epoll × Int) := do
  let ev ← getEvent loop fd
  let op := if ev.event = EV_NONE then .ADD else .MOD
  return epoll_ctl willing loop.poller op fd { events := flags (event ||| ev.event), fd }

def poller_delevent (willing : Bool) (loop : event_loop C D epoll) (fd : Int) (event : BitVec 32) :
    Outcome (epoll × Int) := do
  let ev ← getEvent loop fd
  let nevent := ev.event &&& ~~~event
  let op := if nevent = EV_NONE then .DEL else .MOD
  return epoll_ctl willing loop.poller op fd { events := flags nevent, fd }

/-- The entry of `actives` for what the kernel reports. -/
def active (e : epoll_event) : ev_active where
  fd := e.fd
  event :=
    (if e.events &&& EPOLLIN ≠ 0 then EV_RDABLE else EV_NONE) |||
    (if e.events &&& EPOLLOUT ≠ 0 then EV_WRABLE else EV_NONE) |||
    (if e.events &&& EPOLLERR ≠ 0 then EV_WRABLE else EV_NONE) |||
    (if e.events &&& EPOLLHUP ≠ 0 then EV_WRABLE else EV_NONE)

def fillActives (loop : event_loop C D epoll) (actives : List ev_active) :
    List epoll_event → Outcome (List ev_active)
  | [] => return actives
  | e :: answer => do
    let actives ← addActive loop actives (active e)
    fillActives loop actives answer

def poller_poll (wait : epoll_wait) (loop : event_loop C D epoll) (timeout : Int) :
    Outcome (epoll × List ev_active) := do
  match wait loop.poller.interest loop.setsize timeout with
  | none => .running
  | some answer =>
    let actives ← fillActives loop [] answer
    return (loop.poller, actives)

def build : Poller C D epoll Bool epoll_wait where
  poller_addevent := poller_addevent
  poller_delevent := poller_delevent
  poller_poll := poller_poll
  serves _ := True
  add_returns _ _ hget k event := by
    unfold poller_addevent
    rw [hget]
    exact ⟨_, rfl⟩
  del_returns _ _ hget k event := by
    unfold poller_delevent
    rw [hget]
    exact ⟨_, rfl⟩

end epoll

/-! ## select -/

def FD_SETSIZE : Int := 1024

abbrev fd_set := Int → Bool

def FD_ASSIGN (value : Bool) (fd : Int) (set : fd_set) : Outcome fd_set :=
  if 0 ≤ fd ∧ fd < FD_SETSIZE then .done (Function.update set fd value) else .fault

def FD_SET : Int → fd_set → Outcome fd_set := FD_ASSIGN true
def FD_CLR : Int → fd_set → Outcome fd_set := FD_ASSIGN false

def FD_ISSET (fd : Int) (set : fd_set) : Outcome Bool :=
  if 0 ≤ fd ∧ fd < FD_SETSIZE then .done (set fd) else .fault

/-- The copies that a call of `select` changes are not kept. -/
structure select where
  rfds : fd_set
  wfds : fd_set

/-- What `select` answers, for `nfds`, the two sets, and the seconds and microseconds of the timeout, and the
sets it leaves. -/
abbrev SelectCall := Int → fd_set → fd_set → Int → Int → Int × fd_set × fd_set

namespace select

def poller_create (malloc : Bool) : Option select :=
  if malloc then some { rfds := fun _ => false, wfds := fun _ => false } else none

/-- `if (event & EV_RDABLE) FD_SET(fd, &poller->rfds)`, and the same for the other direction and for `FD_CLR`. -/
def mark (assign : Int → fd_set → Outcome fd_set) (fd : Int) (event : BitVec 32) (d : Direction) (set : fd_set) :
    Outcome fd_set :=
  if event &&& d.mask ≠ 0 then assign fd set else .done set

/-- What `poller_addevent` and `poller_delevent` share. -/
def change (assign : Int → fd_set → Outcome fd_set) (poller : select) (fd : Int) (event : BitVec 32) :
    Outcome (select × Int) := do
  let rfds ← mark assign fd event .read poller.rfds
  let wfds ← mark assign fd event .write poller.wfds
  return ({ rfds, wfds }, 0)

def poller_addevent (_ : Unit) (loop : event_loop C D select) (fd : Int) (event : BitVec 32) :
    Outcome (select × Int) := change FD_SET loop.poller fd event

def poller_delevent (_ : Unit) (loop : event_loop C D select) (fd : Int) (event : BitVec 32) :
    Outcome (select × Int) := change FD_CLR loop.poller fd event

/-- One half of the entry for `j`: the direction is registered and its set has the descriptor. -/
def half (j : Int) (event : BitVec 32) (d : Direction) (set : fd_set) : Outcome (BitVec 32) := do
  if event &&& d.mask ≠ 0 then
    let ready ← FD_ISSET j set
    return if ready then d.mask else EV_NONE
  else return EV_NONE

/-- The loop over the descriptors. -/
def scan (loop : event_loop C D select) (crfds cwfds : fd_set) (actives : List ev_active) :
    List Nat → Outcome (List ev_active)
  | [] => return actives
  | j :: js => do
    let ev ← getEvent loop j
    if ev.event = EV_NONE then scan loop crfds cwfds actives js
    else do
      let read ← half j ev.event .read crfds
      let write ← half j ev.event .write cwfds
      let actives ← addActive loop actives { fd := j, event := read ||| write }
      scan loop crfds cwfds actives js

/-- Division in C goes towards 0. -/
def poller_poll (call : SelectCall) (loop : event_loop C D select) (timeout : Int) :
    Outcome (select × List ev_active) := do
  let tv_sec := timeout.tdiv 1000
  let tv_usec := timeout.tmod 1000 * 1000
  let (retval, crfds, cwfds) := call (loop.maxfd + 1) loop.poller.rfds loop.poller.wfds tv_sec tv_usec
  let actives ←
    if retval > 0 then scan loop crfds cwfds [] (List.range (loop.maxfd + 1).toNat) else pure []
  return (loop.poller, actives)

theorem change_returns {assign : Int → fd_set → Outcome fd_set} {poller : select} {fd : Int} {event : BitVec 32}
    (h : ∀ set, ∃ set', assign fd set = .done set') : ∃ r, change assign poller fd event = .done r := by
  have hmark (d : Direction) (set : fd_set) : ∃ set', mark assign fd event d set = .done set' := by
    unfold mark
    split_ifs
    · exact h set
    · exact ⟨set, rfl⟩
  obtain ⟨rfds, hread⟩ := hmark .read poller.rfds
  obtain ⟨wfds, hwrite⟩ := hmark .write poller.wfds
  unfold change
  rw [hread, Outcome.done_bind, hwrite]
  exact ⟨_, rfl⟩

theorem assign_returns {loop : event_loop C D select} {ev : ev_event C D} {fd : Int} (value : Bool)
    (hserves : loop.setsize ≤ FD_SETSIZE) (hfd : fd < loop.setsize) (hget : getEvent loop fd = .done ev)
    (set : fd_set) : FD_ASSIGN value fd set = .done (Function.update set fd value) :=
  if_pos ⟨(lt_of_get_event hget).1, Int.lt_of_lt_of_le hfd hserves⟩

def build : Poller C D select Unit SelectCall where
  poller_addevent := poller_addevent
  poller_delevent := poller_delevent
  poller_poll := poller_poll
  serves setsize := setsize ≤ FD_SETSIZE
  add_returns hserves hfd hget _ _ := change_returns fun set => ⟨_, assign_returns true hserves hfd hget set⟩
  del_returns hserves hfd hget _ _ := change_returns fun set => ⟨_, assign_returns false hserves hfd hget set⟩

end select

end Akio.Event
