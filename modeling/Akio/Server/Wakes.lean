import Akio.Loop.Runs
import Akio.Server.Runs

/-!
# How long the server sleeps

Its only timer is the one of `print_info`, and no callback of an event touches the timers.
-/

namespace Akio.Server

open Buffer Socket Loop Demo
open Event (EV_RDABLE epoll epoll_wait ev_active Direction)

variable {strerror gai_strerror : Int → String} {proc : process} {loop loop' : FullLoop callback data epoll}
  {u u' : state} {s₀ : FullLoop callback data epoll × state} {s : startup} {i : Nat} {fd : Int} {d : Int}
  {heap : Timer.timer_heap callback data} {log log' : List (Event.Entry callback data)}

/-- The timer of `print_info` is due at `d`. -/
structure Wakes (heap : Timer.timer_heap callback data) (d : Int) : Prop where
  ticking : Ticking heap
  due : ∃ te, Timer.heap_top heap = .done (some te) ∧ Timer.due heap.timers te = d

/-! ## Callbacks of events -/

theorem acceptLoop_timers {errno : Int} {written : Bool} {accepts : List accepted}
    {effects : List (Effect callback data Bool)}
    (hdone : acceptLoop strerror id errno u written accepts = .done (u', effects)) : timerActs effects = [] := by
  induction accepts generalizing u written effects with
  | nil =>
    obtain ⟨-, rfl⟩ := acceptLoop_nil hdone
    rfl
  | cons a accepts ih =>
    obtain ⟨x, i, u₁, written₁, effects₁, rfl, hrest⟩ := acceptLoop_cons hdone
    have hnone := ih hrest
    exact hnone

theorem timerActs_of_requests (willing : Bool) (log : List Demo.Entry) :
    timerActs (log.flatMap (effectsOf id willing fd i) : List (Effect callback data Bool)) = [] := by
  unfold timerActs
  rw [List.filterMap_eq_nil_iff]
  intro effect heffect
  obtain ⟨e, -, he⟩ := List.mem_flatMap.mp heffect
  cases e <;> simp [effectsOf] at he <;> subst he <;> rfl

theorem event_callback_timers {cb : callback} {data : Server.data} {ans : answer}
    {r : state × List (Effect callback Server.data Bool)}
    (hdone : (program strerror id).event_callback cb fd data ans u = .done r) : timerActs r.2 = [] := by
  cases cb with
  | server_accept_cb => exact acceptLoop_timers hdone
  | print_info => cases hdone
  | client_readcb =>
    cases data with
    | none => cases hdone
    | some i =>
      obtain ⟨⟨server, log⟩, -, hpure⟩ := Outcome.bind_eq_done.mp hdone
      cases hpure
      exact timerActs_of_requests ans.willing log
  | client_writecb =>
    cases data with
    | none => cases hdone
    | some i =>
      obtain ⟨⟨server, log⟩, -, hpure⟩ := Outcome.bind_eq_done.mp hdone
      cases hpure
      exact timerActs_of_requests ans.willing log

theorem invoke_timers {ans : answer} {active : ev_active} {dir : Direction}
    (hdone : Loop.invoke Event.epoll.build (program strerror id) ans loop u active dir = .done (loop', u', log)) :
    loop'.timers = loop.timers := by
  obtain ⟨ev, -, hdone⟩ := Outcome.bind_eq_done.mp hdone
  split_ifs at hdone
  · obtain ⟨cb, -, hdone⟩ := Outcome.bind_eq_done.mp hdone
    obtain ⟨data, -, hdone⟩ := Outcome.bind_eq_done.mp hdone
    obtain ⟨⟨u₁, effects⟩, hcall, hdone⟩ := Outcome.bind_eq_done.mp hdone
    obtain ⟨⟨loop₁, log₁, created, deleted⟩, hrun, hpure⟩ := Outcome.bind_eq_done.mp hdone
    cases hpure
    have htimers := (runEffects_refines epoll_blind hrun).2
    rw [event_callback_timers hcall] at htimers
    exact (congrArg Prod.fst (Outcome.done.inj htimers)).symm
  · cases hdone
    rfl

theorem dispatch_timers {answers : Nat → Direction → answer} {actives : List ev_active} {j : Nat}
    (hdone : Loop.dispatch Event.epoll.build (program strerror id) answers loop u j actives = .done (loop', u', log)) :
    loop'.timers = loop.timers := by
  induction actives generalizing loop u j log with
  | nil =>
    cases hdone
    rfl
  | cons active actives ih =>
    obtain ⟨⟨loop₁, u₁, log₁⟩, hread, hdone⟩ := Outcome.bind_eq_done.mp hdone
    obtain ⟨⟨loop₂, u₂, log₂⟩, hwrite, hdone⟩ := Outcome.bind_eq_done.mp hdone
    obtain ⟨⟨loop₃, u₃, log₃⟩, hrest, hpure⟩ := Outcome.bind_eq_done.mp hdone
    cases hpure
    exact (ih hrest).trans ((invoke_timers hwrite).trans (invoke_timers hread))

/-! ## The timer -/

theorem Wakes.timeout {clock timeout : Int} (hw : Wakes heap d)
    (hdone : Timer.get_shortest_msec clock heap = .done timeout) : 0 ≤ timeout ∧ timeout ≤ max 0 (d - clock) := by
  obtain ⟨⟨v, f, hg, -⟩, te, htop, hdue⟩ := hw
  have hzero : Timer.Scheduled heap (v 0) := hg.scheduled_zero (by omega)
  obtain rfl : v 0 = te := by
    rw [Timer.heap_top_spec hg.heapOf] at htop
    exact Option.some.inj (Outcome.done.inj htop)
  obtain ⟨r, hr, hshortest⟩ := Timer.shortest_of_good hg clock
  obtain rfl := Outcome.done.inj (hdone.symm.trans hr)
  rw [← hdue]
  exact ⟨(hshortest.range _ hzero).1, hshortest.le _ hzero⟩

theorem processLoop_wakes {ticks : List (Tick answer)} {processed processed' : Int} {fired fired' : List Timer.Fired}
    (hw : Wakes loop.timers d) (hdone : Loop.processLoop Event.epoll.build (program strerror id) loop u processed fired
      log ticks = .done (loop', u', processed', fired', log')) :
    ∃ d', Wakes loop'.timers d' ∧ (d' = d ∨ ∃ tick ∈ ticks, d' = tick.later + 1000) := by
  induction ticks generalizing loop u processed fired log d with
  | nil =>
    obtain ⟨te, htop, -⟩ := hw.due
    unfold Loop.processLoop at hdone
    rw [htop, Outcome.done_bind, if_pos (Option.some_ne_none te)] at hdone
    cases hdone
  | cons tick ticks ih =>
    obtain ⟨te, htop, -⟩ := hw.due
    unfold Loop.processLoop at hdone
    rw [htop, Outcome.done_bind] at hdone
    obtain ⟨n, -, hdone⟩ := Outcome.bind_eq_done.mp hdone
    split_ifs at hdone
    · cases hdone
      exact ⟨d, hw, Or.inl rfl⟩
    · obtain ⟨heap, one, hfire, hticking, htop', hdue'⟩ := hw.ticking.fired strerror u htop tick
      rw [hfire, Outcome.done_bind] at hdone
      obtain ⟨d', hw', hd'⟩ := ih ⟨hticking, te, htop', hdue'⟩ hdone
      refine ⟨d', hw', Or.inr ?_⟩
      rcases hd' with rfl | ⟨tick', hin, rfl⟩
      · exact ⟨tick, List.mem_cons_self, rfl⟩
      · exact ⟨tick', List.mem_cons_of_mem _ hin, rfl⟩

/-! ## Runs -/

/-- What the clock reads in a call of `process_events`. -/
def readings (round : Round answer epoll_wait) : List Int :=
  round.clock :: round.ticks.flatMap fun tick => [tick.now_msec, tick.later]

theorem Wakes.pass {round : Round answer epoll_wait} {pass : Pass callback data} (hw : Wakes loop.timers d)
    (hdone : process_events Event.epoll.build (program strerror id) round loop u = .done (loop', u', pass)) :
    (0 ≤ pass.timeout ∧ pass.timeout ≤ max 0 (d - round.clock)) ∧
    ∃ d', Wakes loop'.timers d' ∧ (d' = d ∨ ∃ x ∈ readings round, d' = x + 1000) := by
  obtain ⟨timeout, htimeout, hdone⟩ := Outcome.bind_eq_done.mp hdone
  obtain ⟨⟨poller, actives⟩, hpoll, hdone⟩ := Outcome.bind_eq_done.mp hdone
  obtain ⟨⟨loop₁, u₁, log⟩, hdispatch, hdone⟩ := Outcome.bind_eq_done.mp hdone
  obtain ⟨⟨loop₂, u₂, processed, fired, log'⟩, hloop, hpure⟩ := Outcome.bind_eq_done.mp hdone
  cases hpure
  have hsame := dispatch_timers hdispatch
  have hw₁ : Wakes loop₁.timers d := by
    rw [hsame]
    exact hw
  obtain ⟨d', hw', hd'⟩ := processLoop_wakes hw₁ hloop
  refine ⟨hw.timeout htimeout, d', hw', hd'.imp_right ?_⟩
  rintro ⟨tick, hin, rfl⟩
  exact ⟨tick.later, List.mem_cons_of_mem _ (List.mem_flatMap.mpr ⟨tick, hin, by simp⟩), rfl⟩

theorem main_wakes (hmain : main strerror gai_strerror id Event.epoll.build (epoll.poller_create true) s proc =
    .done (some (loop, u))) : Wakes loop.timers (s.clock + 1000) := by
  obtain ⟨registry, timers, hs⟩ := main_started hmain
  obtain ⟨te, htimer⟩ := hs.timer
  obtain ⟨r, hcreate⟩ := hs.event
  have hsame : loop.timers = timers := (Event.create_event_done hcreate).frame.2.2
  refine ⟨hs.up.registered.ticking, 0, ?_⟩
  rw [hsame]
  obtain rfl := Option.some.inj hs.new
  cases htimer
  exact ⟨rfl, rfl⟩

/-- The poll of every call of `process_events` has a timeout. Where the clock is not set back it is a second at the
most. -/
theorem timeout_of_start {rounds : List (Round answer epoll_wait)} {round : Round answer epoll_wait}
    {pass : Pass callback data}
    (hmain : main strerror gai_strerror id Event.epoll.build (epoll.poller_create true) s proc = .done (some s₀))
    (hrun : Run (Loop.Served Event.epoll.build (program strerror id) fun _ => True) s₀ rounds (loop, u))
    (hdone : process_events Event.epoll.build (program strerror id) round loop u = .done (loop', u', pass)) :
    0 ≤ pass.timeout ∧
      ((∀ x ∈ s.clock :: rounds.flatMap readings, x ≤ round.clock) → pass.timeout ≤ 1000) := by
  have hwakes : ∃ d, Wakes loop.timers d ∧ ∃ x ∈ s.clock :: rounds.flatMap readings, d = x + 1000 := by
    refine hrun.history (P := fun rounds t => ∃ d, Wakes t.1.timers d ∧
      ∃ x ∈ s.clock :: rounds.flatMap readings, d = x + 1000) ?_ ?_
    · exact ⟨_, main_wakes hmain, s.clock, List.mem_cons_self, rfl⟩
    · rintro rounds t round t' - ⟨d, hw, x, hin, rfl⟩ ⟨-, pass, hpass⟩
      obtain ⟨-, d', hw', hd'⟩ := hw.pass hpass
      refine ⟨d', hw', ?_⟩
      rw [List.flatMap_append, ← List.cons_append]
      rcases hd' with rfl | ⟨y, hy, rfl⟩
      · exact ⟨x, List.mem_append_left _ hin, rfl⟩
      · exact ⟨y, List.mem_append_right _ (by simpa using hy), rfl⟩
  obtain ⟨d, hw, x, hin, rfl⟩ := hwakes
  obtain ⟨⟨hlo, hhi⟩, -⟩ := hw.pass hdone
  refine ⟨hlo, fun hclock => ?_⟩
  have := hclock x hin
  omega

/-- Nothing is reported. The clock reads `clock` throughout, and the loop looks at the timers twice. -/
def idleRound (clock : Int) : Round answer epoll_wait :=
  let answer := { inputs := [], outputs := [], close := none, accepts := [], errno := EAGAIN, willing := true }
  { clock, poll := waitOn [], answers := fun _ _ => answer, ticks := [⟨clock, answer, clock⟩, ⟨clock, answer, clock⟩] }

theorem timeout_sample :
    ∃ pass : Pass callback data, pass.timeout = 600 ∧ 0 ≤ pass.timeout ∧
      ((∀ x ∈ plainStartup.clock :: [idleRound 1000].flatMap readings, x ≤ 1400) → pass.timeout ≤ 1000) := by
  have hfacts : ((process_events Event.epoll.build (program (fun _ => "") id) (idleRound 1000) plainStart.1
      plainStart.2).toOption.bind fun r =>
        (process_events Event.epoll.build (program (fun _ => "") id) (idleRound 1400) r.1 r.2.1).toOption.map fun r' =>
          decide (r'.2.2.timeout = 600)) = some true := by decide +kernel
  obtain ⟨⟨loop, u, pass⟩, hpass, hfacts⟩ := Option.bind_eq_some_iff.mp hfacts
  obtain ⟨⟨loop', u', pass'⟩, hpass', hfacts⟩ := Option.map_eq_some_iff.mp hfacts
  have hserved : Loop.Served Event.epoll.build (program (fun _ => "") id) (fun _ => True) plainStart
      (idleRound 1000) (loop, u) := ⟨trivial, pass, Outcome.toOption_eq_some.mp hpass⟩
  exact ⟨pass', of_decide_eq_true hfacts,
    timeout_of_start plainMain_done (Run.nil.snoc hserved) (Outcome.toOption_eq_some.mp hpass')⟩

end Akio.Server
