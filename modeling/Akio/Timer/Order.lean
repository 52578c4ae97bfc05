import Akio.Timer.Reach

/-!
# The order in which timers fire

The loop fires the first timer of the heap again and again. Calls that are refused memory are allowed here,
and lose a timer at most.
-/

namespace Akio.Timer

variable {C D : Type} {heap heap₀ heap₁ heap' : timer_heap C D} {v : Nat → Nat} {n t te : Nat}
  {f l : List Nat}

/-- A turn of the loop that ran a callback, and the heap it left. -/
structure Firing (C D : Type) where
  turn : Turn C D
  fired : Fired
  heap : timer_heap C D

def Fires (heap : timer_heap C D) (x : Firing C D) (heap' : timer_heap C D) : Prop :=
  ∃ te, heap_top heap = .done (some te) ∧ due heap.timers te ≤ x.turn.now_msec ∧
    fire heap te x.turn = .done (heap', x.fired) ∧ x.heap = heap'

/-- The loop ends here: the heap is empty, or its first timer is not due at the next reading. -/
def Stops (heap : timer_heap C D) (rest : List (Turn C D)) : Prop :=
  heap_top heap = .done none ∨ ∃ te turn, heap_top heap = .done (some te) ∧ rest.head? = some turn ∧
    turn.now_msec < due heap.timers te

/-- No callback deleted the timer that was fired. -/
def NotOwn (log : List Fired) : Prop := ∀ fired ∈ log, fired.timer ∉ fired.deleted

/-! ## The loop as a run -/

theorem processLoop_done {turns : List (Turn C D)} {processed processed' : Int} {log log' : List Fired}
    (hdone : processLoop heap processed log turns = .done (heap', processed', log')) :
    ∃ firings rest, turns = firings.map Firing.turn ++ rest ∧ Run Fires heap firings heap' ∧
      log' = log ++ firings.map Firing.fired ∧ processed' = processed + firings.length ∧
      Stops heap' rest := by
  induction turns generalizing heap processed log with
  | nil =>
    unfold processLoop at hdone
    obtain ⟨te, htop, hrest⟩ := Outcome.bind_eq_done.mp hdone
    by_cases hte : te ≠ none
    · rw [if_pos hte] at hrest
      cases hrest
    · rw [if_neg hte] at hrest
      obtain ⟨rfl, rfl, rfl⟩ : heap = heap' ∧ processed = processed' ∧ log = log' := by simpa using hrest
      rw [not_not.mp hte] at htop
      exact ⟨[], [], rfl, .nil, by simp, by simp, Or.inl htop⟩
  | cons turn turns ih =>
    unfold processLoop at hdone
    obtain ⟨te, htop, hrest⟩ := Outcome.bind_eq_done.mp hdone
    cases te with
    | none =>
      obtain ⟨rfl, rfl, rfl⟩ : heap = heap' ∧ processed = processed' ∧ log = log' := by simpa using hrest
      exact ⟨[], turn :: turns, rfl, .nil, by simp, by simp, Or.inl htop⟩
    | some te =>
      obtain ⟨a, hread, hrest⟩ := Outcome.bind_eq_done.mp hrest
      obtain ⟨q, hq, ha⟩ := Store.read_eq_done.mp hread
      obtain rfl := Option.some.inj hq
      have hdue : due heap.timers te = a.when_msec := Store.field_of_cell ha
      by_cases hearly : turn.now_msec < a.when_msec
      · rw [if_pos hearly] at hrest
        obtain ⟨rfl, rfl, rfl⟩ : heap = heap' ∧ processed = processed' ∧ log = log' := by simpa using hrest
        exact ⟨[], turn :: turns, rfl, .nil, by simp, by simp, Or.inr ⟨te, turn, htop, rfl, hdue ▸ hearly⟩⟩
      · rw [if_neg hearly] at hrest
        obtain ⟨⟨heap₁, fired⟩, hfire, hloop⟩ := Outcome.bind_eq_done.mp hrest
        obtain ⟨firings, rest, rfl, hrun, rfl, rfl, hstops⟩ := ih hloop
        have hfires : Fires heap ⟨turn, fired, heap₁⟩ heap₁ :=
          ⟨te, htop, by rw [hdue]; exact not_lt.mp hearly, hfire, rfl⟩
        refine ⟨⟨turn, fired, heap₁⟩ :: firings, rest, rfl, (Run.nil.snoc hfires).trans hrun, ?_, ?_, hstops⟩
        · simp
        · rw [List.length_cons]
          omega

theorem fire_done {turn : Turn C D} {fired : Fired} (hfire : fire heap te turn = .done (heap', fired)) :
    fired.timer = te ∧
      ∃ heap₁, runCallback heap turn.acts = .done (heap₁, fired.created, fired.deleted) := by
  unfold fire at hfire
  obtain ⟨a, -, hrest⟩ := Outcome.bind_eq_done.mp hfire
  obtain ⟨⟨heap₁, created, deleted⟩, hrun, hrest⟩ := Outcome.bind_eq_done.mp hrest
  dsimp only at hrest
  split at hrest
  · obtain ⟨⟨heap₂, r⟩, -, hpure⟩ := Outcome.bind_eq_done.mp hrest
    obtain ⟨-, rfl⟩ : heap₂ = heap' ∧ _ = fired := by simpa using hpure
    exact ⟨rfl, heap₁, hrun⟩
  · obtain ⟨timers, -, hrest⟩ := Outcome.bind_eq_done.mp hrest
    obtain ⟨⟨heap₂, r⟩, -, hpure⟩ := Outcome.bind_eq_done.mp hrest
    obtain ⟨-, rfl⟩ : heap₂ = heap' ∧ _ = fired := by simpa using hpure
    exact ⟨rfl, heap₁, hrun⟩

/-! ## What a firing does -/

/-- What the claims of the loop say about one firing. -/
structure Punctual (x : Firing C D) : Prop where
  not_early : x.fired.when_msec ≤ x.turn.now_msec
  scheduled_iff : Scheduled x.heap x.fired.timer ↔ x.turn.retval > EV_TIMER_END
  deadline : x.turn.retval > EV_TIMER_END →
    due x.heap.timers x.fired.timer = x.turn.later + x.turn.retval

theorem Fires.spec {x : Firing C D} (hg : Good heap v n f l) (hx : Fires heap x heap')
    (hown : x.fired.timer ∉ x.fired.deleted) :
    Punctual x ∧ Member v n x.fired.timer ∧ x.fired.when_msec = due heap.timers x.fired.timer ∧
      (∀ p, Member v n p → x.fired.when_msec ≤ due heap.timers p) ∧
      ∃ v' n' f' l', Good heap' v' n' f' l' ∧ Onward heap v n heap' v' n' x.turn.readings := by
  obtain ⟨te, htop, hdue, hfire, hheap⟩ := hx
  obtain ⟨rfl, heap₁, hrun⟩ := fire_done hfire
  have hm : n ≠ 0 ∧ v 0 = x.fired.timer := by
    rw [heap_top_spec hg.heapOf] at htop
    simpa using htop
  obtain ⟨hn, htimer⟩ := hm
  have hmember : Member v n x.fired.timer := htimer ▸ Member.of_lt (by omega)
  obtain ⟨heap₂, after, v', n', f', l', hfire', hg', -, -, hiff, hlater, honward⟩ :=
    fire_spec hg hmember hrun fun hdel => absurd hdel hown
  obtain ⟨rfl, hfired⟩ : heap' = heap₂ ∧ x.fired = _ := by simpa [hfire] using hfire'
  have hwhen : x.fired.when_msec = due heap.timers x.fired.timer := congrArg Fired.when_msec hfired
  refine ⟨⟨?_, ?_, ?_⟩, hmember, hwhen, ?_, v', n', f', l', hg', honward⟩
  · rw [hwhen]
    exact hdue
  · rw [hheap, hg'.scheduled_iff]
    exact hiff
  · rw [hheap]
    exact hlater
  · intro p hp
    rw [hwhen, ← htimer]
    exact hg.heapOf.top_le hp

/-- Behind every firing so far all times in the heap are at or after the time that fired. -/
theorem firings_spec {firings : List (Firing C D)} (hg : Good heap v n f l)
    (hrun : Run Fires heap firings heap') (hown : NotOwn (firings.map Firing.fired)) :
    (∀ x ∈ firings, Punctual x) ∧ ∃ v' n' f' l', Good heap' v' n' f' l' ∧
      ((firings.flatMap fun x => x.turn.readings).Pairwise (· ≤ ·) →
        (firings.map fun x => x.fired.when_msec).Pairwise (· ≤ ·) ∧
        ∀ x ∈ firings, ∀ p, Member v' n' p → x.fired.when_msec ≤ due heap'.timers p) := by
  induction hrun with
  | nil => exact ⟨by simp, v, n, f, l, hg, by simp⟩
  | @snoc firings heap₁ heap₂ x hrun hx ih =>
    have hown₁ : NotOwn (firings.map Firing.fired) := by
      intro fired hin
      apply hown
      rw [List.map_append]
      exact List.mem_append_left _ hin
    obtain ⟨hpunctual, v₁, n₁, f₁, l₁, hg₁, hclock₁⟩ := ih hown₁
    obtain ⟨hpunctual', hmember, hwhen, hfirst, v', n', f', l', hg', honward⟩ := hx.spec hg₁ (hown _ (by simp))
    refine ⟨?_, v', n', f', l', hg', ?_⟩
    · intro y hy
      rcases List.mem_append.mp hy with hy | hy
      · exact hpunctual y hy
      · rw [List.mem_singleton.mp hy]
        exact hpunctual'
    · intro hclock
      rw [List.flatMap_append, List.flatMap_singleton, List.pairwise_append] at hclock
      obtain ⟨hold, hnew, hacross⟩ := hclock
      obtain ⟨hsorted, hlow⟩ := hclock₁ hold
      have hnow : ∀ y ∈ firings ++ [x], y.fired.when_msec ≤ x.turn.now_msec := by
        intro y hy
        rcases List.mem_append.mp hy with hy | hy
        · apply (hpunctual y hy).not_early.trans
          apply hacross _ (List.mem_flatMap.mpr ⟨y, hy, List.mem_cons_self⟩) _ List.mem_cons_self
        · rw [List.mem_singleton.mp hy]
          exact hpunctual'.not_early
      have hbefore : ∀ y ∈ firings ++ [x], ∀ p, Member v₁ n₁ p → y.fired.when_msec ≤ due heap₁.timers p := by
        intro y hy
        rcases List.mem_append.mp hy with hy | hy
        · exact hlow y hy
        · rw [List.mem_singleton.mp hy]
          exact hfirst
      constructor
      · rw [List.map_append, List.pairwise_append]
        refine ⟨hsorted, List.pairwise_singleton _ _, ?_⟩
        simp only [List.mem_map, List.mem_singleton, List.map_cons, List.map_nil]
        rintro _ ⟨y, hy, rfl⟩ _ rfl
        rw [hwhen]
        exact hlow y hy _ hmember
      · intro y hy
        apply honward y.fired.when_msec _ (hbefore y hy)
        intro r hr
        apply (hnow y hy).trans
        rcases List.mem_cons.mp hr with rfl | hr
        · exact le_refl _
        · exact (List.pairwise_cons.mp hnew).1 r hr

/-! ## Reachable heaps -/

/-- On a clock that does not run backwards a call fires timers in the order of their times, none early,
and leaves none that was due when it last looked. -/
theorem fires_in_order_of_run {maxsize : Int} {calls : List (Call C D)} {turns : List (Turn C D)}
    {processed : Int} {log : List Fired}
    (hnew : timer_heap_create true true maxsize = some heap₀) (hrun : Run Returned heap₀ calls heap)
    (hdone : process_time_events turns heap = .done (heap', processed, log)) (hown : NotOwn log)
    (hclock : (turns.flatMap Turn.readings).Pairwise (· ≤ ·)) :
    ∃ firings rest, turns = firings.map Firing.turn ++ rest ∧ Run Fires heap firings heap' ∧
      log = firings.map Firing.fired ∧ processed = firings.length ∧ (∀ x ∈ firings, Punctual x) ∧
      (log.map Fired.when_msec).Pairwise (· ≤ ·) ∧
      ∀ t, Scheduled heap' t → ∃ turn, rest.head? = some turn ∧ turn.now_msec < due heap'.timers t := by
  obtain ⟨v, n, f, l, hg⟩ := good_of_returned hnew hrun
  obtain ⟨firings, rest, rfl, hfirings, rfl, hprocessed, hstops⟩ := processLoop_done hdone
  obtain ⟨hpunctual, v', n', f', l', hg', hsorted⟩ := firings_spec hg hfirings hown
  refine ⟨firings, rest, rfl, hfirings, rfl, by simpa using hprocessed, hpunctual, ?_, ?_⟩
  · rw [List.flatMap_append, List.flatMap_map, List.pairwise_append] at hclock
    rw [List.nil_append, List.map_map]
    exact (hsorted hclock.1).1
  · intro t ht
    rw [hg'.scheduled_iff] at ht
    rw [Stops, heap_top_spec hg'.heapOf] at hstops
    rcases hstops with hempty | ⟨te, turn, htop, hhead, hlate⟩
    · obtain ⟨i, hi, -⟩ := ht
      have hn : n' = 0 := by simpa using hempty
      omega
    · obtain ⟨-, rfl⟩ : n' ≠ 0 ∧ v' 0 = te := by simpa using htop
      exact ⟨turn, hhead, hlate.trans_le (hg'.heapOf.top_le ht)⟩

/-- Three turns for a run on fixed input: the timer fires twice, and one that it created stays. -/
def sampleTurns : List (Turn Nat Nat) :=
  [⟨5, [.create true true 5 3 0 0], 1, 6⟩, ⟨7, [], 0, 7⟩, ⟨7, [], 0, 7⟩]

def sampleLog : List Fired := [⟨0, 1, [1], [], .rearmed⟩, ⟨0, 7, [], [], .removed⟩]

theorem fires_in_order_sample :
    ∃ heap', process_time_events sampleTurns armedHeap = .done (heap', 2, sampleLog) ∧
      ∃ firings rest, sampleTurns = firings.map Firing.turn ++ rest ∧ Run Fires armedHeap firings heap' ∧
        sampleLog = firings.map Firing.fired ∧ 2 = (firings.length : Int) ∧ (∀ x ∈ firings, Punctual x) ∧
        (sampleLog.map Fired.when_msec).Pairwise (· ≤ ·) ∧
        ∀ t, Scheduled heap' t → ∃ turn, rest.head? = some turn ∧ turn.now_msec < due heap'.timers t := by
  have hown : NotOwn sampleLog := by simp [NotOwn, sampleLog]
  have hrun : Run Returned newHeap [.act (.create true true 0 1 0 0)] armedHeap := Run.nil.snoc rfl
  have hclock : (sampleTurns.flatMap Turn.readings).Pairwise (· ≤ ·) := by decide
  exact ⟨_, rfl, fires_in_order_of_run (show timer_heap_create true true 16 = some newHeap from rfl) hrun rfl
    hown hclock⟩

end Akio.Timer
