import Akio.Lib.Ledger
import Akio.Loop.Runs
import Akio.Timer.Release

/-!
# The life of a loop

What `event_loop_create` takes from the system, and what `event_loop_delete` gives back. `realloc` of the slots of the
heap is no use here: what it returns is still the one block of them.
-/

namespace Akio.Loop

open Event Timer Ledger

/-- The blocks that a loop is made of, and the descriptor of `epoll_create`. -/
inductive Block where
  | loop | heap | tes | events | actives | poller | epoll_events | epfd
deriving DecidableEq, Repr

/-- What the system answers where each of them is asked for. -/
abbrev Grants := Block → Bool

def mallocUses (grants : Grants) (block : Block) : List (Use Block) :=
  if grants block then [.acquire block] else []

/-- `free`, which does nothing where the block was not granted. -/
def freeUses (grants : Grants) (block : Block) : List (Use Block) :=
  if grants block then [.release block] else []

/-- What was taken is `blocks`, the last one first, where the call went well, and otherwise all was given back. -/
def Yields (blocks : List Block) (r : List (Use Block) × Bool) : Prop :=
  ∀ h, held h r.1 = some (if r.2 then blocks ++ h else h)

/-- What a build of the poller takes and gives back. -/
structure Life where
  blocks : List Block
  poller_create : Grants → List (Use Block) × Bool
  poller_delete : List (Use Block)
  creates : ∀ grants, Yields blocks (poller_create grants)
  deletes : ∀ h, held (blocks ++ h) poller_delete = some h

/-! ## The pollers -/

def epollUses (grants : Grants) : List (Use Block) × Bool :=
  if !grants .poller then ([], false)
  else if !grants .epoll_events then ([.acquire .poller, .release .poller], false)
  else if !grants .epfd then
    ([.acquire .poller, .acquire .epoll_events, .release .epoll_events, .release .poller], false)
  else ([.acquire .poller, .acquire .epoll_events, .acquire .epfd], true)

theorem epollUses_yields (grants : Grants) : Yields [.epfd, .epoll_events, .poller] (epollUses grants) := by
  intro h
  unfold epollUses
  cases grants .poller with
  | false => rfl
  | true =>
    cases grants .epoll_events with
    | false => simp [held]
    | true => cases grants .epfd <;> simp [held]

def epollLife : Life where
  blocks := [.epfd, .epoll_events, .poller]
  poller_create := epollUses
  poller_delete := [.release .epfd, .release .epoll_events, .release .poller]
  creates grants := epollUses_yields grants
  deletes h := by simp [held]

def selectUses (grants : Grants) : List (Use Block) × Bool :=
  if !grants .poller then ([], false) else ([.acquire .poller], true)

theorem selectUses_yields (grants : Grants) : Yields [.poller] (selectUses grants) := by
  intro h
  unfold selectUses
  cases grants .poller <;> rfl

def selectLife : Life where
  blocks := [.poller]
  poller_create := selectUses
  poller_delete := [.release .poller]
  creates grants := selectUses_yields grants
  deletes h := by simp [held]

/-! ## The loop -/

def heapUses (grants : Grants) : List (Use Block) × Bool :=
  if !grants .heap then ([], false)
  else if !grants .tes then ([.acquire .heap, .release .heap], false)
  else ([.acquire .heap, .acquire .tes], true)

/-- The label `error`. The heap has no timers yet. -/
def errorUses (grants : Grants) : List (Use Block) :=
  [.release .tes, .release .heap] ++ freeUses grants .events ++ freeUses grants .actives ++ [.release .loop]

/-- What is taken before the poller is asked. -/
def taken (grants : Grants) : List (Use Block) :=
  .acquire .loop :: (heapUses grants).1 ++ mallocUses grants .events ++ mallocUses grants .actives

/-- What `event_loop_create` takes and gives back, and whether it returns a loop. -/
def createUses (life : Life) (grants : Grants) : List (Use Block) × Bool :=
  if !grants .loop then ([], false)
  else if !(heapUses grants).2 then (.acquire .loop :: (heapUses grants).1 ++ [.release .loop], false)
  else if !grants .events || !grants .actives then (taken grants ++ errorUses grants, false)
  else
    let uses := taken grants ++ (life.poller_create grants).1
    if !(life.poller_create grants).2 then (uses ++ errorUses grants, false) else (uses, true)

def deleteUses (life : Life) : List (Use Block) :=
  life.poller_delete ++ [.release .tes, .release .heap, .release .events, .release .actives, .release .loop]

/-- What is left of the timers, and what goes back to the system. -/
def event_loop_delete {C D P : Type} (life : Life) (fuel : Nat) (loop : FullLoop C D P) :
    Outcome (Store (timer C D) × List (Use Block)) := do
  let timers ← timer_heap_delete fuel loop.timers
  return (timers, deleteUses life)

variable {C D P K R U A : Type} {b : Poller C D P K R} {prog : Program C D K U A} {life : Life} {grants : Grants}

/-! ## What is held -/

theorem heapUses_yields (grants : Grants) : Yields [.tes, .heap] (heapUses grants) := by
  intro h
  unfold heapUses
  cases grants .heap with
  | false => rfl
  | true => cases grants .tes <;> simp [held]

theorem heapUses_granted (grants : Grants) : (heapUses grants).2 = (grants .heap && grants .tes) := by
  unfold heapUses
  cases grants .heap <;> cases grants .tes <;> rfl

/-- What of the arrays was granted. -/
def arrays (grants : Grants) : List Block :=
  (if grants .actives then [.actives] else []) ++ (if grants .events then [.events] else [])

theorem arrays_held (grants : Grants) (h : List Block) :
    held h (mallocUses grants .events ++ mallocUses grants .actives) = some (arrays grants ++ h) := by
  unfold mallocUses arrays
  cases grants .events <;> cases grants .actives <;> rfl

theorem errorUses_held (grants : Grants) :
    held (arrays grants ++ [.tes, .heap, .loop]) (errorUses grants) = some [] := by
  unfold errorUses arrays freeUses
  cases grants .events <;> cases grants .actives <;> rfl

/-- The blocks of a loop but those of its poller. -/
def loopBlocks : List Block := [.actives, .events, .tes, .heap, .loop]

theorem heapUses_held (grants : Grants) :
    held [] (.acquire .loop :: (heapUses grants).1) =
      some (if (heapUses grants).2 then [.tes, .heap, .loop] else [.loop]) :=
  heapUses_yields grants [.loop]

theorem taken_held (hheap : (heapUses grants).2) :
    held [] (taken grants) = some (arrays grants ++ [.tes, .heap, .loop]) := by
  unfold taken
  rw [List.append_assoc, held_append, heapUses_held, if_pos hheap]
  exact arrays_held grants _

theorem polled_held (life : Life) (hheap : (heapUses grants).2) (hevents : grants .events)
    (hactives : grants .actives) :
    held [] (taken grants ++ (life.poller_create grants).1) =
      some (if (life.poller_create grants).2 then life.blocks ++ loopBlocks
        else arrays grants ++ [.tes, .heap, .loop]) := by
  have hblocks : arrays grants ++ [.tes, .heap, .loop] = loopBlocks := by
    simp [arrays, loopBlocks, hevents, hactives]
  rw [held_append, taken_held hheap, hblocks]
  exact life.creates grants loopBlocks

theorem createUses_held (life : Life) (grants : Grants) :
    held [] (createUses life grants).1 =
      some (if (createUses life grants).2 then life.blocks ++ loopBlocks else []) := by
  by_cases hloop : grants .loop
  case neg => simp [createUses, hloop, held]
  by_cases hheap : (heapUses grants).2
  case neg =>
    have hheld := heapUses_held grants
    rw [if_neg hheap] at hheld
    have hback := held_release hheld List.mem_cons_self
    simpa [createUses, hloop, hheap] using hback
  by_cases harrays : grants .events ∧ grants .actives
  case neg =>
    have hback : held [] (taken grants ++ errorUses grants) = some [] := by
      rw [held_append, taken_held hheap]
      exact errorUses_held grants
    have hmissing : grants .events = false ∨ grants .actives = false :=
      (not_and_or.mp harrays).imp Bool.eq_false_of_not_eq_true Bool.eq_false_of_not_eq_true
    simpa [createUses, hloop, hheap, hmissing] using hback
  obtain ⟨hevents, hactives⟩ := harrays
  have hpolled := polled_held life hheap hevents hactives
  by_cases hpolls : (life.poller_create grants).2
  case neg =>
    rw [if_neg hpolls] at hpolled
    have hback : held [] (taken grants ++ (life.poller_create grants).1 ++ errorUses grants) = some [] := by
      rw [held_append, hpolled]
      exact errorUses_held grants
    simpa [createUses, hloop, hheap, hevents, hactives, hpolls] using hback
  rw [if_pos hpolls] at hpolled
  simpa [createUses, hloop, hheap, hevents, hactives, hpolls] using hpolled

theorem deleteUses_held (life : Life) : held (life.blocks ++ loopBlocks) (deleteUses life) = some [] := by
  unfold deleteUses
  rw [held_append, life.deletes]
  rfl

theorem createUses_iff {poller : Option P} {maxevents : Int} (maxtimers : Int)
    (hsize : grants .events → 0 ≤ maxevents) (hpoller : poller.isSome = (life.poller_create grants).2) :
    (event_loop_create (grants .loop && grants .events && grants .actives) poller
      (timer_heap_create (grants .heap) (grants .tes) maxtimers : Option (timer_heap C D)) maxevents).isSome =
      (createUses life grants).2 := by
  unfold event_loop_create timer_heap_create createUses
  rw [heapUses_granted, ← hpoller]
  cases grants .loop
  case false => simp
  cases hevents : grants .events
  case false => cases grants .heap <;> cases grants .tes <;> simp
  have hnat : ¬ maxevents < 0 := Int.not_lt.mpr (hsize hevents)
  cases grants .actives <;> cases grants .heap <;> cases grants .tes <;> cases poller <;> simp [hnat]

/-- Whatever the system grants, where `event_loop_create` returns no loop everything it took is given back, and where
it returns one, `event_loop_delete` gives everything back after any run, but for the timers that are not in the free
list: they stay in memory, as they were. -/
theorem event_loop_delete_of_run (prog : Program C D K U A) (life : Life) (grants : Grants) (poller : Option P)
    (maxevents maxtimers : Int) (hb : Blind b) (hsize : grants .events → 0 ≤ maxevents)
    (hpoller : poller.isSome = (life.poller_create grants).2) :
    match event_loop_create (grants .loop && grants .events && grants .actives) poller
      (timer_heap_create (grants .heap) (grants .tes) maxtimers : Option (timer_heap C D)) maxevents with
    | none => held [] (createUses life grants).1 = some []
    | some registry =>
      ∀ (u₀ u : U) (calls : List (Call C D K A R)) (loop : FullLoop C D P) (log : List (Entry C D)),
      Run (Steps b prog) ({ toevent_loop := registry, stop := false }, u₀, []) calls (loop, u, log) →
      ∃ free timers uses, Outcome.Returns (fun fuel => event_loop_delete life fuel loop) (timers, uses) ∧
        held [] ((createUses life grants).1 ++ uses) = some [] ∧ Swept loop.timers free timers := by
  have hreturns := createUses_iff (C := C) (D := D) maxtimers hsize hpoller
  have hheld := createUses_held life grants
  rw [← hreturns] at hheld
  split
  next hnone =>
    rw [hnone] at hheld
    exact hheld
  next registry hsome =>
    intro u₀ u calls loop log hrun
    rw [hsome] at hheld
    obtain ⟨-, hheap⟩ := event_loop_create_eq hsome
    have hgranted : grants .heap = true ∧ grants .tes = true := by
      by_contra hnot
      rw [timer_heap_create, if_neg hnot] at hheap
      cases hheap
    rw [hgranted.1, hgranted.2] at hheap hsome
    rw [hheap] at hsome
    obtain ⟨-, -, v, m, f, l, hg⟩ := kept_of_run hb hheap hsome hrun
    obtain ⟨timers, ⟨fuel, hdone⟩, hswept⟩ := hg.timer_heap_delete_spec
    refine ⟨f, timers, deleteUses life, ⟨fuel, ?_⟩, ?_, hswept⟩
    · exact (congrArg (· >>= _) hdone).trans rfl
    · rw [held_append, hheld]
      exact deleteUses_held life

/-- Everything is granted but the descriptor of the poller. -/
def noDescriptor : Grants := fun block => block ≠ .epfd

theorem event_loop_delete_sample :
    held [] (createUses epollLife noDescriptor).1 = some [] ∧
    ∃ free timers uses, Outcome.Returns (fun fuel => event_loop_delete epollLife fuel samplePassed.1) (timers, uses) ∧
      held [] ((createUses epollLife fun _ => true).1 ++ uses) = some [] ∧
      Swept samplePassed.1.timers free timers := by
  constructor
  · exact event_loop_delete_of_run sampleProgram epollLife noDescriptor none 4 16 epoll_blind (by decide) rfl
  · exact event_loop_delete_of_run sampleProgram epollLife (fun _ => true) (epoll.poller_create true) 4 16
      epoll_blind (by decide) rfl 0 _ _ _ _ samplePassed_run

end Akio.Loop
