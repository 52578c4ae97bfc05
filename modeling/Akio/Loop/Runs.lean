import Akio.Loop.Refine
import Akio.Timer.Shortest

/-!
# Every run of the loop

What is proved of the registry and of the timers alone holds of a loop whose callbacks use both.
-/

namespace Akio.Loop

open Event Timer

variable {C D P K R U A : Type} {b : Poller C D P K R} {prog : Program C D K U A} {loop loop' loop₀ : FullLoop C D P}
  {u u' u₀ : U} {effects : List (Effect C D K)} {log log' : List (Entry C D)} {n : Int}

/-- A call from outside, or one of `process_events`. -/
inductive Call (C D K A R : Type) where
  | effect (effect : Effect C D K)
  | round (round : Round A R)

/-- A loop, its program and its history, before and after a call that returned. -/
def Steps (b : Poller C D P K R) (prog : Program C D K U A) (s : FullLoop C D P × U × List (Entry C D))
    (call : Call C D K A R) (s' : FullLoop C D P × U × List (Entry C D)) : Prop :=
  match call with
  | .effect effect => ∃ log created deleted,
    runEffect b s.1 effect = .done (s'.1, log, created, deleted) ∧ s'.2 = (s.2.1, s.2.2 ++ log)
  | .round round => ∃ pass, process_events b prog round s.1 s.2.1 = .done (s'.1, s'.2.1, pass) ∧
    (∀ e ∈ pass.log, e.Distinct) ∧ s'.2.2 = s.2.2 ++ pass.log

/-- What holds in every state of a run. -/
structure Kept (n : Int) (loop : FullLoop C D P) (log : List (Entry C D)) : Prop where
  recorded : Recorded n loop.toevent_loop log
  faithful : Faithful log
  timers : ∃ v m f l, Good loop.timers v m f l

/-! ## One call -/

theorem recorded_registry {timers : timer_heap C D} (hr : Recorded n (registry loop timers) log) :
    Recorded n loop.toevent_loop log := hr.congr rfl rfl fun _ _ => rfl

theorem Kept.effect {effect : Effect C D K} {created deleted : List Nat} (hb : Blind b) (hk : Kept n loop log)
    (hdone : runEffect b loop effect = .done (loop', log', created, deleted)) : Kept n loop' (log ++ log') := by
  obtain ⟨hr, hf, v, m, f, l, hg⟩ := hk
  cases effect with
  | event act =>
    obtain ⟨⟨registry', log₁⟩, hact, hpure⟩ := Outcome.bind_eq_done.mp hdone
    cases hpure
    obtain ⟨hr', hchange⟩ := runAct_spec hr hact
    have hsame := (runAct_blind hb hact loop.timers).2
    refine ⟨hr', hf.append hchange, v, m, f, l, ?_⟩
    rw [← hsame] at hg
    exact hg
  | timer act =>
    obtain ⟨⟨timers, created₁, deleted₁⟩, hact, hpure⟩ := Outcome.bind_eq_done.mp hdone
    cases hpure
    obtain ⟨_, _, _, v', m', f', l', hdone', hg', -⟩ := Timer.runAct_spec hg (Proper.of_done hact)
    cases hact.symm.trans hdone'
    rw [List.append_nil]
    exact ⟨hr.congr rfl rfl fun _ _ => rfl, hf, v', m', f', l', hg'⟩
  | stop =>
    cases hdone
    rw [List.append_nil]
    exact ⟨hr, hf, v, m, f, l, hg⟩

theorem RegistryGoes.kept {round : Round A R} {m : Int} (hgoes : RegistryGoes b round loop loop' log' m)
    (hr : Recorded n loop.toevent_loop log) (hf : Faithful log) (hdistinct : ∀ e ∈ log', e.Distinct) :
    Recorded n loop'.toevent_loop (log ++ log') ∧ Faithful (log ++ log') := by
  obtain ⟨behave, registry₁, first, done, rest, hactives, hrun, rfl⟩ := hgoes
  obtain ⟨hr₁, hf₁⟩ := processActives_spec hr hf hactives fun e he => hdistinct e (List.mem_append_left rest he)
  obtain ⟨hr₂, hchange⟩ := Event.runCallback_spec hr₁ hrun
  rw [← List.append_assoc]
  exact ⟨recorded_registry hr₂, hf₁.append hchange⟩

theorem TimersGo.good {round : Round A R} {pass : Pass C D} {m : Int} {v : Nat → Nat} {k : Nat} {f l : List Nat}
    (hgo : TimersGo b prog round loop u loop' pass m) (hg : Good loop.timers v k f l) :
    ∃ v k f l, Good loop'.timers v k f l := by
  obtain ⟨-, -, batch, -, -, -, -, ⟨done, created, deleted, hrun⟩, turns, -, hloop⟩ := hgo
  obtain ⟨v₁, k₁, f₁, l₁, hg₁, -⟩ := Timer.runCallback_spec hg hrun
  exact processLoop_good hg₁ hloop

theorem Kept.round {round : Round A R} {pass : Pass C D} (hb : Blind b) (hk : Kept n loop log)
    (hdone : process_events b prog round loop u = .done (loop', u', pass)) (hdistinct : ∀ e ∈ pass.log, e.Distinct) :
    Kept n loop' (log ++ pass.log) := by
  obtain ⟨hr, hf, v, k, f, l, hg⟩ := hk
  obtain ⟨-, m, m', hregistry, htimers, -⟩ := process_events_refines hb hdone
  obtain ⟨hr', hf'⟩ := hregistry.kept hr hf hdistinct
  exact ⟨hr', hf', htimers.good hg⟩

theorem Steps.kept {s s' : FullLoop C D P × U × List (Entry C D)} {call : Call C D K A R} (hb : Blind b)
    (hk : Kept n s.1 s.2.2) (hstep : Steps b prog s call s') : Kept n s'.1 s'.2.2 := by
  cases call with
  | effect effect =>
    obtain ⟨log, created, deleted, hdone, hrest⟩ := hstep
    rw [hrest]
    exact hk.effect hb hdone
  | round round =>
    obtain ⟨pass, hdone, hdistinct, hlog⟩ := hstep
    rw [hlog]
    exact hk.round hb hdone hdistinct

theorem event_loop_create_eq {poller : Option P} {timers : Option (timer_heap C D)} {malloc : Bool} {maxevents : Int}
    {registry : event_loop C D P} (hnew : event_loop_create malloc poller timers maxevents = some registry) :
    poller = some registry.poller ∧ timers = some registry.timers := by
  unfold event_loop_create at hnew
  split_ifs at hnew
  obtain ⟨t, ht, hnew⟩ := Option.bind_eq_some_iff.mp hnew
  obtain ⟨p, hp, hnew⟩ := Option.bind_eq_some_iff.mp hnew
  rw [← Option.some.inj hnew]
  exact ⟨hp, ht⟩

theorem new_kept {malloc : Bool} {poller : Option P} {heap₀ : timer_heap C D} {maxsize : Int}
    (hheap : timer_heap_create true true maxsize = some heap₀)
    (hnew : event_loop_create malloc poller (some heap₀) n = some loop₀.toevent_loop) : Kept n loop₀ [] := by
  have htimers : loop₀.timers = heap₀ := (Option.some.inj (event_loop_create_eq hnew).2).symm
  refine ⟨new_recorded hnew, by simp [Faithful], ?_⟩
  rw [htimers]
  exact ⟨_, _, _, _, new_good hheap⟩

theorem kept_of_run {malloc : Bool} {poller : Option P} {heap₀ : timer_heap C D} {maxsize : Int}
    {calls : List (Call C D K A R)} (hb : Blind b) (hheap : timer_heap_create true true maxsize = some heap₀)
    (hnew : event_loop_create malloc poller (some heap₀) n = some loop₀.toevent_loop)
    (hrun : Run (Steps b prog) (loop₀, u₀, []) calls (loop, u, log)) : Kept n loop log :=
  hrun.invariant (P := fun s => Kept n s.1 s.2.2) (fun _ _ _ hk hstep => hstep.kept hb hk) (new_kept hheap hnew)

/-! ## Runs -/

/-- In every run, with callbacks of both kinds that do what they like to the loop, each callback of an event that was
called is the one registered last for its direction, was reported by the latest poll and called once for it, and
what is registered has a callback. -/
theorem due_of_run {malloc : Bool} {poller : Option P} {heap₀ : timer_heap C D} {maxsize : Int}
    {calls : List (Call C D K A R)} (hb : Blind b) (hheap : timer_heap_create true true maxsize = some heap₀)
    (hnew : event_loop_create malloc poller (some heap₀) n = some loop₀.toevent_loop)
    (hrun : Run (Steps b prog) (loop₀, u₀, []) calls (loop, u, log)) :
    Faithful log ∧ Recorded n loop.toevent_loop log :=
  have hk := kept_of_run hb hheap hnew hrun
  ⟨hk.faithful, hk.recorded⟩

/-- The callback of an event deletes it and creates a timer, and that of the timer stops the loop and ends. -/
def sampleProgram : Program Nat Nat Bool Nat Unit where
  event_callback _ fd data _ u :=
    .done (u + 1, [.event (.delete true fd EV_RDABLE), .timer (.create true true 5 10 9 data)])
  timer_callback _ _ _ u := .done (u + 1, [.stop], 0)

def sampleLoop : FullLoop Nat Nat epoll := { toevent_loop := newLoop ⟨fun _ => none, []⟩, stop := false }

theorem sample_heap : timer_heap_create true true 16 = some (Timer.newHeap : timer_heap Nat Nat) := rfl

theorem sample_new : event_loop_create true (some ⟨fun _ => none, []⟩) (some Timer.newHeap) 4 =
    some sampleLoop.toevent_loop := rfl

/-- Descriptor 1 is reported. The timer that its callback creates is due at once. -/
def sampleRound : Round Unit epoll_wait where
  clock := 5
  poll := fun _ _ _ => some [⟨1#32, 1⟩]
  answers := fun _ _ => ()
  ticks := [⟨20, (), 20⟩, ⟨20, (), 20⟩]

def sampleCreated : FullLoop Nat Nat epoll :=
  ((runEffect epoll.build sampleLoop (.event (.create true 1 EV_RDABLE 7 0))).toOption.get (by decide)).1

def samplePassed : FullLoop Nat Nat epoll × Nat × Pass Nat Nat :=
  (process_events epoll.build sampleProgram sampleRound sampleCreated 0).toOption.get (by decide)

theorem sampleCreated_run : Run (Steps epoll.build sampleProgram) (sampleLoop, 0, [])
    [.effect (.event (.create true 1 EV_RDABLE 7 0))] (sampleCreated, 0, [.created 1 EV_RDABLE 7]) :=
  Run.nil.snoc ⟨[.created 1 EV_RDABLE 7], [], [], rfl, rfl⟩

theorem samplePassed_done :
    process_events epoll.build sampleProgram sampleRound sampleCreated 0 = .done samplePassed := rfl

theorem samplePassed_run : Run (Steps epoll.build sampleProgram) (sampleLoop, 0, [])
    [.effect (.event (.create true 1 EV_RDABLE 7 0)), .round sampleRound]
    (samplePassed.1, samplePassed.2.1, .created 1 EV_RDABLE 7 :: samplePassed.2.2.log) :=
  sampleCreated_run.snoc ⟨samplePassed.2.2, samplePassed_done, by decide, rfl⟩

theorem due_sample :
    samplePassed.2.2.log = [.reported [⟨1, EV_RDABLE⟩], .invoked 1 .read 7 0, .deleted 1 EV_RDABLE] ∧
    Faithful (.created 1 EV_RDABLE 7 :: samplePassed.2.2.log) ∧
    Recorded 4 samplePassed.1.toevent_loop (.created 1 EV_RDABLE 7 :: samplePassed.2.2.log) := by
  exact ⟨rfl, due_of_run epoll_blind sample_heap sample_new samplePassed_run⟩

end Akio.Loop
