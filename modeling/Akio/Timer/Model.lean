import Akio.Lib.Store
import Mathlib.Data.Int.Init

/-!
# The timers of `kznet/timer.c`

The state is the heap record and the timers it has allocated. Counters and times are unbounded integers.
The slots of `tes` are checked more strictly than in C: reading one outside `[0, now)` is a fault, and so
is writing one outside `[0, now]`, where `now` is the slot a push fills. A failed `assert` is a fault too.
The clock, `malloc` and `realloc` are arguments. `tail` is `none` where it points to `head`.
-/

namespace Akio.Timer

def EV_TIMER_END : Int := 0

structure timer (C D : Type) where
  min_heap_idx : Int
  when_msec : Int
  data : D
  cb : C
  next : Ptr

structure timer_heap (C D : Type) where
  now : Int
  all : Int
  tes : Nat → Ptr
  maxsize : Int
  allocs : Int
  size : Int
  head_next : Ptr
  tail : Ptr
  timers : Store (timer C D)

variable {C D : Type}

/-- `malloc` and `calloc` answer for the record and for the slots. -/
def timer_heap_create (malloc calloc : Bool) (maxsize : Int) : Option (timer_heap C D) :=
  if malloc ∧ calloc then
    some
      { now := 0, all := 16, tes := fun _ => none, maxsize := if maxsize < 16 then 16 else maxsize
        allocs := 0, size := 0, head_next := none, tail := none, timers := .empty }
  else none

/-! ## The heap -/

/-- `heap->tes[i]` -/
def getSlot (heap : timer_heap C D) (i : Int) : Outcome Ptr :=
  if 0 ≤ i ∧ i < heap.now then .done (heap.tes i.toNat) else .fault

/-- `heap->tes[i] = t; heap->tes[i]->min_heap_idx = i` -/
def setSlot (heap : timer_heap C D) (i : Int) (t : Ptr) : Outcome (timer_heap C D) := do
  if 0 ≤ i ∧ i ≤ heap.now ∧ i < heap.all then
    let timers ← heap.timers.modify t fun n => { n with min_heap_idx := i }
    return { heap with tes := Function.update heap.tes i.toNat t, timers }
  else .fault

/-- `realloc` answers for the larger block of slots. -/
def reserve (realloc : Bool) (heap : timer_heap C D) (n : Int) : timer_heap C D × Int :=
  let all := heap.all * 2
  let all := if all < n then n else all
  if realloc then ({ heap with all }, 0) else (heap, -1)

def elem_greater (heap : timer_heap C D) (a b : Ptr) : Outcome Bool := do
  let a ← heap.timers.read a
  let b ← heap.timers.read b
  return a.when_msec > b.when_msec

/-- The loop of `_shift_up`, for a number of turns. -/
def shiftUpLoop (t : Ptr) : Nat → timer_heap C D → Int → Outcome (timer_heap C D)
  | 0, _, _ => .running
  | fuel + 1, heap, hole_index => do
    let parent := (hole_index - 1).tdiv 2
    if hole_index ≠ 0 then
      let p ← getSlot heap parent
      if ← elem_greater heap p t then
        let heap ← setSlot heap hole_index p
        shiftUpLoop t fuel heap parent
      else setSlot heap hole_index t
    else setSlot heap hole_index t

/-- There are no more turns than slots. -/
def shift_up (heap : timer_heap C D) (hole_index : Int) (t : Ptr) : Outcome (timer_heap C D) :=
  shiftUpLoop t (heap.now.toNat + 1) heap hole_index

/-- `min_child -= (min_child == heap->now || _elem_greater(..))` -/
def lesserChild (heap : timer_heap C D) (min_child : Int) : Outcome Int := do
  let left ←
    if min_child = heap.now then pure true
    else do
      let r ← getSlot heap min_child
      let l ← getSlot heap (min_child - 1)
      elem_greater heap r l
  return if left then min_child - 1 else min_child

/-- The loop of `_shift_down`, for a number of turns. -/
def shiftDownLoop (t : Ptr) : Nat → timer_heap C D → Int → Outcome (timer_heap C D)
  | 0, _, _ => .running
  | fuel + 1, heap, hole_index => do
    let min_child := 2 * (hole_index + 1)
    if min_child ≤ heap.now then
      let min_child ← lesserChild heap min_child
      let c ← getSlot heap min_child
      if ← elem_greater heap t c then
        let heap ← setSlot heap hole_index c
        shiftDownLoop t fuel heap min_child
      else setSlot heap hole_index t
    else setSlot heap hole_index t

def shift_down (heap : timer_heap C D) (hole_index : Int) (t : Ptr) : Outcome (timer_heap C D) :=
  shiftDownLoop t (heap.now.toNat + 1) heap hole_index

def heap_top (heap : timer_heap C D) : Outcome Ptr :=
  if heap.now ≠ 0 then getSlot heap 0 else .done none

def heap_push (realloc : Bool) (heap : timer_heap C D) (t : Ptr) : Outcome (timer_heap C D × Int) := do
  let (heap, r) := if heap.all < heap.now + 1 then reserve realloc heap (heap.now + 1) else (heap, 0)
  if r ≠ 0 then return (heap, -1)
  let heap ← shift_up heap heap.now t
  return ({ heap with now := heap.now + 1 }, 0)

/-- The choice that `_heap_adjust` and `_heap_delete` share: where the content `t` of slot `i` goes. -/
def shift (heap : timer_heap C D) (i : Int) (t : Ptr) : Outcome (timer_heap C D) := do
  let parent := (i - 1).tdiv 2
  let up ←
    if i > 0 then do
      let p ← getSlot heap parent
      elem_greater heap p t
    else pure false
  if up then shift_up heap i t else shift_down heap i t

def heap_adjust (heap : timer_heap C D) (t : Ptr) : Outcome (timer_heap C D × Int) := do
  let n ← heap.timers.read t
  let heap ← shift heap n.min_heap_idx t
  return (heap, 0)

def heap_delete (heap : timer_heap C D) (t : Ptr) : Outcome (timer_heap C D × Int) := do
  let last ← getSlot heap (heap.now - 1)
  let heap := { heap with now := heap.now - 1 }
  let n ← heap.timers.read t
  let heap ← shift heap n.min_heap_idx last
  let timers ← heap.timers.modify t fun n => { n with min_heap_idx := -1 }
  return ({ heap with timers }, 0)

/-! ## The timers -/

/-- The first timer of the free list, or a new one. -/
def takeTimer (malloc : Bool) (heap : timer_heap C D) (cb : C) (data : D) :
    Outcome (timer_heap C D × Ptr) := do
  if heap.head_next ≠ none then
    let n ← heap.timers.read heap.head_next
    let tail := if n.next = none then none else heap.tail
    return ({ heap with head_next := n.next, tail, size := heap.size - 1 }, heap.head_next)
  else if !malloc then return (heap, none)
  else
    let (te, timers) := heap.timers.alloc { min_heap_idx := -1, when_msec := 0, data, cb, next := none }
    return ({ heap with timers, allocs := heap.allocs + 1 }, some te)

/-- `clock` is what `get_now_time` reads. -/
def create_timer (malloc realloc : Bool) (clock : Int) (heap : timer_heap C D) (msec : Int)
    (cb : Option C) (data : D) : Outcome (timer_heap C D × Ptr) := do
  if ¬ msec > EV_TIMER_END then .fault
  let cb ← Outcome.ofOption cb
  let (heap, te) ← takeTimer malloc heap cb data
  if te = none then return (heap, none)
  let timers ← heap.timers.modify te fun n =>
    { n with next := none, min_heap_idx := -1, when_msec := clock + msec, cb, data }
  let (heap, r) ← heap_push realloc { heap with timers } te
  return (heap, if r = 0 then te else none)

/-- Frees the timer, or puts it at the end of the free list. -/
def putTimer (heap : timer_heap C D) (t : Ptr) : Outcome (timer_heap C D) := do
  if heap.allocs > heap.maxsize then
    let timers ← heap.timers.free t
    return { heap with timers, allocs := heap.allocs - 1 }
  else
    let heap ←
      if heap.tail = none then pure { heap with head_next := t }
      else do
        let timers ← heap.timers.modify heap.tail fun n => { n with next := t }
        pure { heap with timers }
    return { heap with tail := t, size := heap.size + 1 }

def delete_timer (heap : timer_heap C D) (t : Ptr) : Outcome (timer_heap C D × Int) := do
  let n ← heap.timers.read t
  if n.min_heap_idx < 0 ∨ n.next ≠ none then return (heap, -1)
  let (heap, _) ← heap_delete heap t
  let heap ← putTimer heap t
  return (heap, 0)

/-! ## `process_time_events` -/

/-- What a callback may do with the timers: a call of `create_timer`, with the answers it meets, or of
`delete_timer`. -/
inductive Act (C D : Type) where
  | create (malloc realloc : Bool) (clock msec : Int) (cb : C) (data : D)
  | delete (t : Nat)

/-- One call of a callback, and the timers it created and deleted. -/
def runAct (heap : timer_heap C D) : Act C D → Outcome (timer_heap C D × List Nat × List Nat)
  | .create malloc realloc clock msec cb data => do
    let (heap, te) ← create_timer malloc realloc clock heap msec (some cb) data
    return (heap, te.toList, [])
  | .delete t => do
    let (heap, r) ← delete_timer heap t
    return (heap, [], if r = 0 then [t] else [])

def runCallback (heap : timer_heap C D) : List (Act C D) → Outcome (timer_heap C D × List Nat × List Nat)
  | [] => return (heap, [], [])
  | act :: acts => do
    let (heap, created, deleted) ← runAct heap act
    let (heap, created', deleted') ← runCallback heap acts
    return (heap, created ++ created', deleted ++ deleted')

/-- One turn of the loop as its surroundings decide it: the clock, what the callback does and returns,
and the clock when the timer is armed again. -/
structure Turn (C D : Type) where
  now_msec : Int
  acts : List (Act C D)
  retval : Int
  later : Int

/-- What the loop did with the timer that it had fired. -/
inductive After where
  | rearmed
  | removed
  | kept
deriving DecidableEq, Repr

/-- One turn as it went. -/
structure Fired where
  timer : Nat
  when_msec : Int
  created : List Nat
  deleted : List Nat
  after : After

/-- The body of the loop, for a timer `te` that is due. -/
def fire (heap : timer_heap C D) (te : Nat) (turn : Turn C D) : Outcome (timer_heap C D × Fired) := do
  let n ← heap.timers.read te
  let (heap, created, deleted) ← runCallback heap turn.acts
  if turn.retval ≤ EV_TIMER_END then
    let (heap, r) ← delete_timer heap te
    return (heap, ⟨te, n.when_msec, created, deleted, if r = 0 then .removed else .kept⟩)
  else
    let timers ← heap.timers.modify te fun n => { n with when_msec := turn.later + turn.retval }
    let (heap, _) ← heap_adjust { heap with timers } te
    return (heap, ⟨te, n.when_msec, created, deleted, .rearmed⟩)

/-- The loop, which stays `running` where `turns` does not say how it goes on. -/
def processLoop (heap : timer_heap C D) (processed : Int) (log : List Fired) :
    List (Turn C D) → Outcome (timer_heap C D × Int × List Fired)
  | [] => do
    let te ← heap_top heap
    if te ≠ none then .running else return (heap, processed, log)
  | turn :: turns => do
    match ← heap_top heap with
    | none => return (heap, processed, log)
    | some te =>
      let n ← heap.timers.read te
      if turn.now_msec < n.when_msec then return (heap, processed, log)
      let (heap, fired) ← fire heap te turn
      processLoop heap (processed + 1) (log ++ [fired]) turns

def process_time_events (turns : List (Turn C D)) (heap : timer_heap C D) :
    Outcome (timer_heap C D × Int × List Fired) :=
  processLoop heap 0 [] turns

def INT32_MAX : Int := 2147483647

/-- `clock` is what `get_now_time` reads. -/
def get_shortest_msec (clock : Int) (heap : timer_heap C D) : Outcome Int := do
  let te ← heap_top heap
  if te = none then return -1
  let n ← heap.timers.read te
  let msec := n.when_msec - clock
  let msec := if msec > INT32_MAX then INT32_MAX else msec
  return if msec < 0 then 0 else msec

end Akio.Timer
