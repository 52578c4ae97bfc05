import Akio.Timer.Free
import Akio.Lib.Run

/-!
# `process_time_events` and its callbacks

A turn of the loop is safe for the timer that it fires if the callback leaves that timer in the heap, or
if it stops the timer and leaves it in the free list.
-/

namespace Akio.Timer

open HeapOrder

variable {C D : Type} {heap heap' : timer_heap C D} {v : Nat → Nat} {n p te : Nat} {f l : List Nat}

/-! ## What a run has to keep to -/

/-- `create_timer` asks for a time ahead and is not refused more slots. `delete_timer` gets a timer that
is still in memory. -/
def Able (heap : timer_heap C D) : Act C D → Prop
  | .create malloc realloc _ msec _ _ => msec > EV_TIMER_END ∧ Granted heap malloc realloc
  | .delete t => heap.timers.Live t

def AbleAll (heap : timer_heap C D) : List (Act C D) → Prop
  | [] => True
  | act :: acts => Able heap act ∧
    match runAct heap act with
    | .done (heap', _) => AbleAll heap' acts
    | _ => True

/-- The timer is in memory and not in the heap, so it is in the free list. -/
def Cached (heap : timer_heap C D) (te : Nat) : Prop :=
  heap.timers.Live te ∧ idx heap.timers te < 0

/-- A callback that deletes its own timer stops it, and leaves it in the free list. -/
def SafeTurn (heap : timer_heap C D) (te : Nat) (turn : Turn C D) : Prop :=
  AbleAll heap turn.acts ∧
    match runCallback heap turn.acts with
    | .done (heap', _, deleted) => te ∈ deleted → turn.retval ≤ EV_TIMER_END ∧ Cached heap' te
    | _ => True

def SafeTurns (heap : timer_heap C D) : List (Turn C D) → Prop
  | [] => True
  | turn :: turns =>
    match heap_top heap with
    | .done (some te) => turn.now_msec < due heap.timers te ∨ SafeTurn heap te turn ∧
      match fire heap te turn with
      | .done (heap', _) => SafeTurns heap' turns
      | _ => True
    | _ => True

/-- A call from outside the loop. -/
inductive Call (C D : Type) where
  | act (a : Act C D)
  | process (turns : List (Turn C D))

def runCall (heap : timer_heap C D) : Call C D → Outcome (timer_heap C D)
  | .act a => do
    let (heap, _) ← runAct heap a
    return heap
  | .process turns => do
    let (heap, _) ← process_time_events turns heap
    return heap

def SafeCall (heap : timer_heap C D) : Call C D → Prop
  | .act a => Able heap a
  | .process turns => SafeTurns heap turns

/-- A safe call that returned. -/
def Safely (heap : timer_heap C D) (call : Call C D) (heap' : timer_heap C D) : Prop :=
  SafeCall heap call ∧ runCall heap call = .done heap'

/-- Every timer is in the heap or in the free list, and not in both. -/
structure WellFormed (heap : timer_heap C D) (held free : List Nat) : Prop where
  in_order : MinHeap heap held
  queue : Queue (nextOf heap.timers) heap.head_next heap.tail free
  nodup : free.Nodup
  apart : ∀ p ∈ free, p ∉ held
  each : ∀ p, heap.timers.Live p ↔ p ∈ held ∨ p ∈ free

/-- The loop does not arm a timer again that the callback deleted, and does not remove one that the
callback created. -/
def Apart (fired : Fired) : Prop :=
  (fired.after = .rearmed → fired.timer ∉ fired.deleted) ∧
  (fired.after = .removed → fired.timer ∉ fired.created)

/-- The values of the clock in a turn, in the order in which they are read. One that the source does not
get to read is not used, and may repeat the one before it. -/
def Act.readings : Act C D → List Int
  | .create _ _ clock _ _ _ => [clock]
  | .delete _ => []

def Turn.readings (turn : Turn C D) : List Int :=
  turn.now_msec :: turn.acts.flatMap Act.readings ++ [turn.later]

theorem Good.wellFormed (hg : Good heap v n f []) : ∃ held free, WellFormed heap held free := by
  have hmem : ∀ p, p ∈ (List.range n).map v ↔ Member v n p := by
    intro p
    unfold Member
    simp only [List.mem_map, List.mem_range]
  have hnodup : ((List.range n).map v).Nodup := by
    apply List.Nodup.map_on _ List.nodup_range
    intro i hi j hj
    exact hg.heapOf.full.inj i (List.mem_range.mp hi) j (List.mem_range.mp hj)
  have hfree : ∀ p, p ∈ f ++ [] ↔ p ∈ f := fun p => by rw [List.append_nil]
  refine ⟨(List.range n).map v, f, hg.heapOf.minHeap hnodup hmem, hg.queue, ?_, ?_, ?_⟩
  · simpa using hg.nodup
  · intro p hp
    rw [hmem]
    exact hg.out p ((hfree p).mpr hp)
  · intro p
    rw [hmem, ← hfree]
    exact hg.live p

/-! ## A callback -/

/-- What `create_timer` and `delete_timer` need in order to return. -/
def Proper (heap : timer_heap C D) : Act C D → Prop
  | .create _ _ _ msec _ _ => msec > EV_TIMER_END
  | .delete t => heap.timers.Live t

theorem Able.proper {act : Act C D} (hable : Able heap act) : Proper heap act := by
  cases act with
  | create => exact hable.1
  | delete => exact hable

theorem live_of_delete {t : Nat} {r : timer_heap C D × Int} (h : delete_timer heap (some t) = .done r) :
    heap.timers.Live t := by
  obtain ⟨a, hread, -⟩ := Outcome.bind_eq_done.mp h
  exact Store.live_of_read hread

theorem Proper.of_done {act : Act C D} {r : timer_heap C D × List Nat × List Nat}
    (hrun : runAct heap act = .done r) : Proper heap act := by
  unfold runAct at hrun
  cases act with
  | create malloc realloc clock msec cb data =>
    obtain ⟨r₁, hcreate, -⟩ := Outcome.bind_eq_done.mp hrun
    by_contra hmsec
    have hstop : ¬ msec > EV_TIMER_END := hmsec
    unfold create_timer at hcreate
    rw [if_pos hstop] at hcreate
    cases hcreate
  | delete t =>
    obtain ⟨r₁, hdelete, -⟩ := Outcome.bind_eq_done.mp hrun
    exact live_of_delete hdelete

theorem runAct_spec {act : Act C D} (hg : Good heap v n f l) (hproper : Proper heap act) :
    ∃ heap' created deleted v' n' f' l', runAct heap act = .done (heap', created, deleted) ∧
      Good heap' v' n' f' l' ∧ (Able heap act → l' = l) ∧
      (∀ t, Member v n t → t ∉ deleted → Member v' n' t ∧ t ∉ created) ∧
      Onward heap v n heap' v' n' act.readings := by
  unfold runAct
  cases act with
  | create malloc realloc clock msec cb data =>
    obtain ⟨heap', te, v', n', f', l', hcreate, hg', hgrant, -, hnew, hmem, honward⟩ :=
      create_timer_spec malloc realloc clock hg hproper cb data
    refine ⟨heap', te.toList, [], v', n', f', l', ?_, hg', fun hable => (hgrant hable.2).1, ?_, honward⟩
    · exact (congrArg (· >>= _) hcreate).trans rfl
    · intro t ht _
      refine ⟨(hmem t).mpr (Or.inr ht), ?_⟩
      rw [Option.mem_toList]
      exact fun hte => hnew t hte ht
  | delete p =>
    rcases delete_timer_spec hg hproper with ⟨-, hdelete⟩ | ⟨-, heap', v', f', hdelete, hg', hmem, honward⟩
    · refine ⟨heap, [], [], v, n, f, l, ?_, hg, fun _ => rfl, fun t ht _ => ⟨ht, by simp⟩, Onward.refl⟩
      exact (congrArg (· >>= _) hdelete).trans rfl
    · refine ⟨heap', [], [p], v', n - 1, f', l, ?_, hg', fun _ => rfl, ?_, honward⟩
      · exact (congrArg (· >>= _) hdelete).trans rfl
      · intro t ht hout
        rw [List.mem_singleton] at hout
        exact ⟨(hmem t).mpr ⟨hout, ht⟩, by simp⟩

theorem runCallback_spec {acts : List (Act C D)} {created deleted : List Nat} (hg : Good heap v n f l)
    (hrun : runCallback heap acts = .done (heap', created, deleted)) :
    ∃ v' n' f' l', Good heap' v' n' f' l' ∧ (AbleAll heap acts → l' = l) ∧
      (∀ t, Member v n t → t ∉ deleted → Member v' n' t ∧ t ∉ created) ∧
      Onward heap v n heap' v' n' (acts.flatMap Act.readings) := by
  induction acts generalizing heap v n f l created deleted with
  | nil =>
    obtain ⟨rfl, rfl, rfl⟩ : heap = heap' ∧ [] = created ∧ [] = deleted := by
      unfold runCallback at hrun
      simpa using hrun
    exact ⟨v, n, f, l, hg, fun _ => rfl, fun t ht _ => ⟨ht, by simp⟩, Onward.refl⟩
  | cons act acts ih =>
    unfold runCallback at hrun
    obtain ⟨⟨heap₁, created₁, deleted₁⟩, hact, hrest⟩ := Outcome.bind_eq_done.mp hrun
    obtain ⟨⟨heap₂, created₂, deleted₂⟩, hrun₂, hpure⟩ := Outcome.bind_eq_done.mp hrest
    obtain ⟨rfl, rfl, rfl⟩ : heap₂ = heap' ∧ created₁ ++ created₂ = created ∧
        deleted₁ ++ deleted₂ = deleted := by simpa using hpure
    obtain ⟨_, _, _, v₁, n₁, f₁, l₁, hdone, hg₁, hable₁, hmem₁, honward₁⟩ :=
      runAct_spec hg (Proper.of_done hact)
    obtain ⟨rfl, rfl, rfl⟩ : heap₁ = _ ∧ created₁ = _ ∧ deleted₁ = _ := by simpa [hact] using hdone
    obtain ⟨v', n', f', l', hg', hable, hmem, honward⟩ := ih hg₁ hrun₂
    refine ⟨v', n', f', l', hg', ?_, ?_, honward₁.trans honward⟩
    · rintro ⟨ha, hall⟩
      rw [hact] at hall
      exact (hable hall).trans (hable₁ ha)
    · intro t ht hout
      rw [List.mem_append, not_or] at hout
      obtain ⟨ht₁, hc₁⟩ := hmem₁ t ht hout.1
      obtain ⟨ht', hc₂⟩ := hmem t ht₁ hout.2
      rw [List.mem_append, not_or]
      exact ⟨ht', hc₁, hc₂⟩

theorem runCallback_returns {acts : List (Act C D)} (hg : Good heap v n f l)
    (hable : AbleAll heap acts) : ∃ r, runCallback heap acts = .done r := by
  induction acts generalizing heap v n f l with
  | nil => exact ⟨_, rfl⟩
  | cons act acts ih =>
    obtain ⟨hact, hrest⟩ := hable
    obtain ⟨heap₁, created, deleted, v₁, n₁, f₁, l₁, hrun₁, hg₁, -⟩ := runAct_spec hg hact.proper
    rw [hrun₁] at hrest
    obtain ⟨r, hrun⟩ := ih hg₁ hrest
    unfold runCallback
    rw [hrun₁, Outcome.done_bind]
    exact ⟨_, (congrArg (· >>= _) hrun).trans rfl⟩

/-! ## One turn -/

theorem Good.rearm (hg : Good heap v n f l) (hm : Member v n p) (w : Int) :
    ∃ heap' v', heap_adjust { heap with timers := retime heap.timers p w } (some p) = .done (heap', 0) ∧
      Good heap' v' n f l ∧ (∀ q, Member v' n q ↔ Member v n q) ∧
      due heap'.timers = Function.update (due heap.timers) p w := by
  have hlive := hg.heapOf.live hm
  have hnext : nextOf (retime heap.timers p w) = nextOf heap.timers := Store.field_adjust_keep fun _ => rfl
  obtain ⟨heap', v', hadjust, hheap, hmem, hkept⟩ := heap_adjust_spec
    (show ({ heap with timers := retime heap.timers p w } : timer_heap C D).now = n from hg.heapOf.now)
    hg.heapOf.room hg.heapOf.full.retime hg.heapOf.order hm fun i hi hne => by
      rw [due_retime hlive, Function.update_of_ne hne]
  refine ⟨heap', v', hadjust, ⟨hheap, ?_, hg.nodup, hkept.size.trans hg.size, ?_, hkept.allocs.trans hg.allocs,
    fun q hq => mt (hmem q).mp (hg.out q hq), ?_, ?_, ?_⟩, hmem, hkept.timers.due.trans (due_retime hlive)⟩
  · rw [hkept.timers.next, hkept.head_next, hkept.tail, hnext]
    exact hg.queue
  · rw [hkept.size, hkept.maxsize]
    exact hg.cached
  · intro q hq
    rw [hkept.timers.idx q (hg.out q hq), idx_retime]
    exact hg.freed q hq
  · intro q hq
    rw [hkept.timers.next, hnext]
    exact hg.next q ((hmem q).mp hq)
  · intro q
    rw [hkept.timers.live, Store.adjust_live, hmem]
    exact hg.live q

theorem fire_spec {turn : Turn C D} {heap₁ : timer_heap C D} {created deleted : List Nat}
    (hg : Good heap v n f l) (hm : Member v n te)
    (hrun : runCallback heap turn.acts = .done (heap₁, created, deleted))
    (hown : te ∈ deleted → turn.retval ≤ EV_TIMER_END ∧ Cached heap₁ te) :
    ∃ heap' after v' n' f' l',
      fire heap te turn = .done (heap', ⟨te, due heap.timers te, created, deleted, after⟩) ∧
      Good heap' v' n' f' l' ∧ (AbleAll heap turn.acts → l' = l) ∧
      Apart ⟨te, due heap.timers te, created, deleted, after⟩ ∧
      (Member v' n' te ↔ turn.retval > EV_TIMER_END) ∧
      (turn.retval > EV_TIMER_END → due heap'.timers te = turn.later + turn.retval) ∧
      Onward heap v n heap' v' n' turn.readings := by
  obtain ⟨a, ha⟩ := Store.live_iff.mp (hg.heapOf.live hm)
  have hdue : due heap.timers te = a.when_msec := Store.field_of_cell ha
  obtain ⟨v₁, n₁, f₁, l₁, hg₁, hable, hmem, honward₁⟩ := runCallback_spec hg hrun
  have honward : ∀ {heap' v' n'}, Onward heap₁ v₁ n₁ heap' v' n' [turn.later] →
      Onward heap v n heap' v' n' turn.readings := by
    intro heap' v' n' h
    apply (honward₁.trans h).mono
    intro r hr
    exact List.mem_cons_of_mem turn.now_msec hr
  unfold fire
  rw [Store.read_of_cell ha, Outcome.done_bind, hrun, Outcome.done_bind, hdue]
  by_cases hdel : te ∈ deleted
  · -- The timer is in the free list, and `delete_timer` leaves it there.
    obtain ⟨hstop, hlive₁, hneg⟩ := hown hdel
    have hf := (hg₁.idx_neg_iff hlive₁).mp hneg
    rcases delete_timer_spec hg₁ hlive₁ with ⟨-, hdelete⟩ | ⟨hm₁, -⟩
    · refine ⟨heap₁, .kept, v₁, n₁, f₁, l₁, ?_, hg₁, hable, ?_, ?_, ?_, honward Onward.refl⟩
      · refine (if_pos hstop).trans ?_
        exact (congrArg (· >>= _) hdelete).trans rfl
      · constructor <;> rintro ⟨⟩
      · exact iff_of_false (hg₁.out te hf) (not_lt.mpr hstop)
      · exact fun hmore => absurd hstop (not_le.mpr hmore)
    · exact absurd hm₁ (hg₁.out te hf)
  · obtain ⟨hm₁, hnew⟩ := hmem te hm hdel
    have hlive₁ := hg₁.heapOf.live hm₁
    by_cases hstop : turn.retval ≤ EV_TIMER_END
    · rcases delete_timer_spec hg₁ hlive₁ with ⟨hf, -⟩ | ⟨-, heap', v', f', hdelete, hg', hmem', honward'⟩
      · exact absurd hm₁ (hg₁.out te hf)
      · refine ⟨heap', .removed, v', n₁ - 1, f', l₁, ?_, hg', hable, ?_, ?_, ?_, honward (honward'.mono (by simp))⟩
        · refine (if_pos hstop).trans ?_
          exact (congrArg (· >>= _) hdelete).trans rfl
        · exact ⟨fun _ => hdel, fun _ => hnew⟩
        · apply iff_of_false _ (not_lt.mpr hstop)
          rw [hmem']
          exact fun h => h.1 rfl
        · exact fun hmore => absurd hstop (not_le.mpr hmore)
    · obtain ⟨heap', v', hadjust, hg', hmem', hdue'⟩ := hg₁.rearm hm₁ (turn.later + turn.retval)
      have hmore : turn.retval > EV_TIMER_END := not_le.mp hstop
      refine ⟨heap', .rearmed, v', n₁, f₁, l₁, ?_, hg', hable, ⟨fun _ => hdel, fun _ => hnew⟩, ?_, ?_, honward ?_⟩
      · refine (if_neg hstop).trans ?_
        rw [Store.modify_live hlive₁, Outcome.done_bind]
        exact (congrArg (· >>= _) hadjust).trans rfl
      · exact iff_of_true ((hmem' te).mpr hm₁) hmore
      · intro _
        rw [hdue', Function.update_self]
      · apply Onward.of_due
        intro q hq
        rw [hdue', Function.update_apply]
        split_ifs with hqte
        · unfold EV_TIMER_END at hmore
          exact Or.inr ⟨turn.later, List.mem_singleton_self _, by omega⟩
        · exact Or.inl ⟨(hmem' q).mp hq, rfl⟩

/-! ## The loop -/

/-- The loop ends well, or `turns` does not say how it goes on. -/
def EndsWell : Outcome (timer_heap C D × Int × List Fired) → Prop
  | .done (heap, _, log) => (∃ v n f, Good heap v n f []) ∧ ∀ fired ∈ log, Apart fired
  | .fault => False
  | .running => True

theorem processLoop_spec {turns : List (Turn C D)} (processed : Int) {log : List Fired}
    (hg : Good heap v n f []) (hsafe : SafeTurns heap turns) (hlog : ∀ fired ∈ log, Apart fired) :
    EndsWell (processLoop heap processed log turns) := by
  induction turns generalizing heap v n f processed log with
  | nil =>
    unfold processLoop
    rw [heap_top_spec hg.heapOf, Outcome.done_bind]
    by_cases hempty : n = 0
    · rw [if_pos hempty]
      exact ⟨⟨v, n, f, hg⟩, hlog⟩
    · rw [if_neg hempty, if_pos (Option.some_ne_none _)]
      trivial
  | cons turn turns ih =>
    unfold SafeTurns at hsafe
    unfold processLoop
    rw [heap_top_spec hg.heapOf] at hsafe ⊢
    rw [Outcome.done_bind]
    by_cases hempty : n = 0
    · rw [if_pos hempty]
      exact ⟨⟨v, n, f, hg⟩, hlog⟩
    · rw [if_neg hempty] at hsafe ⊢
      have hm : Member v n (v 0) := Member.of_lt (by omega)
      obtain ⟨a, ha⟩ := Store.live_iff.mp (hg.heapOf.live hm)
      have hdue : due heap.timers (v 0) = a.when_msec := Store.field_of_cell ha
      simp only [hdue] at hsafe
      show EndsWell (heap.timers.read (some (v 0)) >>= _)
      rw [Store.read_of_cell ha, Outcome.done_bind]
      by_cases hearly : turn.now_msec < a.when_msec
      · rw [if_pos hearly]
        exact ⟨⟨v, n, f, hg⟩, hlog⟩
      · rw [if_neg hearly]
        obtain ⟨hturn, hrest⟩ := hsafe.resolve_left hearly
        obtain ⟨⟨heap₀, created, deleted⟩, hrun⟩ := runCallback_returns hg hturn.1
        have hown := hturn.2
        rw [hrun] at hown
        obtain ⟨heap₁, after, v₁, n₁, f₁, l₁, hfire, hg₁, hable, hapart, -⟩ := fire_spec hg hm hrun hown
        obtain rfl := hable hturn.1
        rw [hfire] at hrest ⊢
        apply ih _ hg₁ hrest
        intro fired' hin
        rcases List.mem_append.mp hin with hold | hnew
        · exact hlog fired' hold
        · rw [List.mem_singleton.mp hnew]
          exact hapart

theorem runCall_spec {call : Call C D} (hg : Good heap v n f []) (hsafe : SafeCall heap call)
    (hrun : runCall heap call = .done heap') : ∃ v' n' f', Good heap' v' n' f' [] := by
  unfold runCall at hrun
  cases call with
  | act a =>
    obtain ⟨heap₁, created, deleted, v', n', f', l', hact, hg', hable, -⟩ := runAct_spec hg hsafe.proper
    obtain rfl := hable hsafe
    simp only [hact, Outcome.done_bind, Outcome.pure_eq, Outcome.done.injEq] at hrun
    exact ⟨v', n', f', hrun ▸ hg'⟩
  | process turns =>
    have hends : EndsWell (processLoop heap 0 [] turns) := processLoop_spec 0 hg hsafe (by simp)
    obtain ⟨⟨heap₁, processed, log⟩, hloop, hpure⟩ := Outcome.bind_eq_done.mp hrun
    rw [show processLoop heap 0 [] turns = .done (heap₁, processed, log) from hloop] at hends
    obtain rfl := Outcome.done.inj hpure
    exact hends.1

/-! ## Whole runs -/

theorem new_good {maxsize : Int} (hnew : timer_heap_create true true maxsize = some heap) :
    Good heap (fun _ => 0) 0 [] [] := by
  obtain rfl := Option.some.inj hnew
  refine ⟨⟨rfl, by show (0 : Int) ≤ 16; omega, ⟨by simp, by simp, by simp, by simp⟩, fun i _ hi => by omega⟩,
    ⟨rfl, rfl⟩, by simp, rfl, ?_, rfl, by simp, by simp, ?_, ?_⟩
  · show (0 : Int) ≤ if maxsize < 16 then 16 else maxsize
    split_ifs <;> omega
  · rintro p ⟨i, hi, -⟩
    omega
  · simp [Member]

theorem good_of_run {maxsize : Int} {heap₀ : timer_heap C D} {calls : List (Call C D)}
    (hnew : timer_heap_create true true maxsize = some heap₀) (hrun : Run Safely heap₀ calls heap) :
    ∃ v n f, Good heap v n f [] := by
  apply hrun.invariant (P := fun heap => ∃ v n f, Good heap v n f []) _ ⟨_, _, _, new_good hnew⟩
  rintro heap call heap' ⟨v, n, f, hg⟩ ⟨hcall, hdone⟩
  exact runCall_spec hg hcall hdone

/-- In a run whose calls are all safe every state is well formed, and a further safe call of
`process_time_events` does not leave the slots of the heap, keeps it well formed, and minds what each
callback created and deleted. -/
theorem process_safe_of_run {maxsize : Int} {heap₀ : timer_heap C D} {calls : List (Call C D)}
    (hnew : timer_heap_create true true maxsize = some heap₀)
    (hrun : Run Safely heap₀ calls heap)
    {turns : List (Turn C D)} (hsafe : SafeTurns heap turns) :
    (∃ held free, WellFormed heap held free) ∧ process_time_events turns heap ≠ .fault ∧
    ∀ heap' processed log, process_time_events turns heap = .done (heap', processed, log) →
      (∃ held free, WellFormed heap' held free) ∧ ∀ fired ∈ log, Apart fired := by
  obtain ⟨v, n, f, hg⟩ := good_of_run hnew hrun
  have hends : EndsWell (process_time_events turns heap) := processLoop_spec 0 hg hsafe (by simp)
  refine ⟨hg.wellFormed, ?_, ?_⟩
  · intro hfault
    rw [hfault] at hends
    exact hends
  · intro heap' processed log hdone
    rw [hdone] at hends
    obtain ⟨⟨v', n', f', hg'⟩, hlog⟩ := hends
    exact ⟨hg'.wellFormed, hlog⟩

/-- A new heap for runs on fixed input. -/
def newHeap : timer_heap Nat Nat where
  now := 0
  all := 16
  tes := fun _ => none
  maxsize := 16
  allocs := 0
  size := 0
  head_next := none
  tail := none
  timers := .empty

/-- The heap with one timer. -/
def armedHeap : timer_heap Nat Nat :=
  { newHeap with
    now := 1, allocs := 1, tes := Function.update (fun _ => none) 0 (some 0)
    timers := reindex ((Store.empty.alloc ⟨-1, 0, 0, 0, none⟩).2.adjust 0 fun n =>
      { n with next := none, min_heap_idx := -1, when_msec := 1, cb := 0, data := 0 }) 0 0 }

theorem armed_run : Run Safely newHeap [.act (.create true true 0 1 0 0)] armedHeap :=
  Run.nil.snoc ⟨⟨by decide, Or.inl rfl⟩, rfl⟩

theorem process_safe_sample :
    (∃ held free, WellFormed armedHeap held free) ∧
    process_time_events [⟨5, [.create true true 5 3 0 0], 1, 6⟩, ⟨6, [], 0, 6⟩] armedHeap ≠ .fault ∧
    ∀ heap' processed log, process_time_events [⟨5, [.create true true 5 3 0 0], 1, 6⟩, ⟨6, [], 0, 6⟩] armedHeap =
      .done (heap', processed, log) →
      (∃ held free, WellFormed heap' held free) ∧ ∀ fired ∈ log, Apart fired :=
  process_safe_of_run (show timer_heap_create true true 16 = some newHeap from rfl) armed_run
    (Or.inr ⟨⟨⟨⟨by decide, Or.inl rfl⟩, trivial⟩, fun h => absurd h (by decide)⟩, Or.inl (by decide)⟩)

/-- A callback that deletes its own timer and returns 1 makes the loop read a slot outside the heap. One
that also creates a timer, and returns 0, gets the new timer removed. -/
theorem own_timer_deleted :
    timer_heap_create true true 16 = some newHeap ∧
    Run Safely newHeap [.act (.create true true 0 1 0 0)] armedHeap ∧
    AbleAll armedHeap [.delete 0, .create true true 5 3 0 0] ∧
    process_time_events [⟨5, [.delete 0], 1, 6⟩] armedHeap = .fault ∧
    ∃ heap', process_time_events [⟨5, [.delete 0, .create true true 5 3 0 0], 0, 6⟩] armedHeap =
      .done (heap', 1, [⟨0, 1, [0], [0], .removed⟩]) :=
  ⟨rfl, armed_run, ⟨show armedHeap.timers.Live 0 by decide, ⟨by decide, Or.inl rfl⟩, trivial⟩, rfl, _, rfl⟩

end Akio.Timer
