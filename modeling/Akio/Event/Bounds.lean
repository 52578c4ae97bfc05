import Akio.Event.Agree

/-!
# Indexes into `events` and `actives`

An index outside either array is a fault. `create_event` looks at both ends of the range, and `delete_event` and
`query_event` at one of them. A query from a callback comes after the run that was cut short there.
-/

namespace Akio.Event

variable {C D P K R : Type} {b : Poller C D P K R} {loop loop' loop₀ : event_loop C D P} {n fd clock timeout : Int}
  {event : BitVec 32} {log log' : List (Entry C D)} {act : Act C D K} {acts : List (Act C D K)}
  {active : ev_active} {actives : List ev_active} {can : R → Prop} {I : event_loop C D P → Prop}
  {behave : Nat → Direction → List (Act C D K)} {d : Direction} {j : Nat}

def query_event (loop : event_loop C D P) (fd : Int) : Outcome (BitVec 32) := do
  if fd ≥ loop.setsize then return EV_NONE
  let ev ← getEvent loop fd
  return ev.event

/-! ## Runs of requests -/

/-- A call from outside. That of `process_events` comes in two parts, with the one on timers last. -/
inductive Request (C D K R : Type) where
  | act (a : Act C D K)
  | query (fd : Int)
  | process (clock : Int) (r : R) (behave : Nat → Direction → List (Act C D K))
  | timers (turns : List (Timer.Turn C D))

/-- No descriptor that is asked about is negative, nor is one that a callback deletes. `can` says what the
kernel can answer to a poll. -/
def Request.Valid (can : R → Prop) : Request C D K R → Prop
  | .act a => a.Valid
  | .query fd => 0 ≤ fd
  | .process _ r behave => can r ∧ ∀ j d, ∀ act ∈ behave j d, act.Valid
  | .timers _ => True

/-- A request that returned. -/
def Answered (b : Poller C D P K R) (loop : event_loop C D P) (request : Request C D K R)
    (loop' : event_loop C D P) : Prop :=
  match request with
  | .act a => ∃ log, runAct b loop a = .done (loop', log)
  | .query fd => ∃ event, query_event loop fd = .done event ∧ loop' = loop
  | .process clock r behave => ∃ processed log, processActives b clock r behave loop = .done (loop', processed, log)
  | .timers turns => ∃ timers processed fired,
    Timer.process_time_events turns loop.timers = .done (timers, processed, fired) ∧ loop' = { loop with timers }

/-- The arrays have `setsize` entries, and no request uses an index outside them but a call of `delete_event` or
`query_event` for a negative descriptor. -/
structure InBounds (b : Poller C D P K R) (can : R → Prop) (loop : event_loop C D P) : Prop where
  sized : loop.events.length = loop.setsize
  act : ∀ a : Act C D K, runAct b loop a ≠ .fault ↔ a.Valid
  query : ∀ fd, query_event loop fd ≠ .fault ↔ 0 ≤ fd
  process : ∀ clock timeout r behave, Timer.get_shortest_msec clock loop.timers = .done timeout →
    (Request.process clock r behave : Request C D K R).Valid can → processActives b clock r behave loop ≠ .fault

/-! ## Single calls -/

theorem getEvent_neg (hfd : fd < 0) : getEvent loop fd = .fault := if_neg (by omega)

theorem query_event_iff (hsize : loop.events.length = loop.setsize) : query_event loop fd ≠ .fault ↔ 0 ≤ fd := by
  unfold query_event
  by_cases hge : fd ≥ loop.setsize
  · rw [if_pos hge]
    exact iff_of_true (by simp) (by omega)
  · rw [if_neg hge]
    by_cases hfd : 0 ≤ fd
    · obtain ⟨ev, hget⟩ := getEvent_of_lt loop hfd (by omega)
      rw [hget]
      exact iff_of_true (by simp) hfd
    · rw [getEvent_neg (by omega)]
      exact iff_of_false (by simp) hfd

theorem delete_event_neg (hsize : loop.events.length = loop.setsize) (hfd : fd < 0) (k : K) :
    delete_event b k loop fd event = .fault := by
  unfold delete_event
  rw [if_neg (by omega), getEvent_neg hfd]
  rfl

theorem runAct_iff (hserves : b.serves n) (hr : Recorded n loop log) : runAct b loop act ≠ .fault ↔ act.Valid := by
  have hsize : loop.events.length = loop.setsize := hr.length.trans hr.setsize.symm
  constructor
  · intro hok
    cases act with
    | create k fd event cb data => trivial
    | delete k fd event =>
      apply Int.not_lt.mp
      intro hneg
      apply hok
      exact (congrArg (· >>= _) (delete_event_neg hsize hneg k)).trans rfl
  · intro hvalid
    obtain ⟨r, hact⟩ := runAct_returns hserves hr hvalid
    simp [hact]

/-! ## What a build keeps -/

/-- `I` holds of the loops of a build, and then a poll reports descriptors in `[0, n)` and no more entries than
there is room for. -/
structure Polls (b : Poller C D P K R) (n : Int) (can : R → Prop) (I : event_loop C D P → Prop) : Prop where
  created : ∀ {k loop fd event cb data loop' r}, I loop → Created b k loop fd event cb data loop' r → I loop'
  deleted : ∀ {k loop fd event loop' r}, I loop → Deleted b k loop fd event loop' r → I loop'
  timers : ∀ {loop timers}, I loop → I { loop with timers }
  polled : ∀ {loop log r} timeout, Recorded n loop log → I loop → can r →
    b.poller_poll r loop timeout = .running ∨ ∃ actives, b.poller_poll r loop timeout = .done (loop.poller, actives) ∧
      ∀ active ∈ actives, 0 ≤ active.fd ∧ active.fd < n

/-- What holds in every state of a run. -/
def Kept (n : Int) (I : event_loop C D P → Prop) (loop : event_loop C D P) : Prop :=
  (∃ log, Recorded n loop log) ∧ I loop

theorem runAct_kept (hp : Polls b n can I) (hk : Kept n I loop) (hdone : runAct b loop act = .done (loop', log')) :
    Kept n I loop' := by
  obtain ⟨⟨log, hr⟩, hi⟩ := hk
  refine ⟨⟨_, (runAct_spec hr hdone).1⟩, ?_⟩
  unfold runAct at hdone
  cases act with
  | create k fd event cb data =>
    obtain ⟨⟨loop₁, r⟩, hcreate, hpure⟩ := Outcome.bind_eq_done.mp hdone
    obtain ⟨rfl, -⟩ := Prod.mk.inj (Outcome.done.inj hpure)
    exact hp.created hi (create_event_done hcreate)
  | delete k fd event =>
    obtain ⟨⟨loop₁, r⟩, hdelete, hpure⟩ := Outcome.bind_eq_done.mp hdone
    obtain ⟨rfl, -⟩ := Prod.mk.inj (Outcome.done.inj hpure)
    exact hp.deleted hi (delete_event_done hdelete)

theorem runCallback_kept (hp : Polls b n can I) (hk : Kept n I loop)
    (hdone : runCallback b loop acts = .done (loop', log')) : Kept n I loop' := by
  induction acts generalizing loop log' with
  | nil =>
    obtain ⟨rfl, -⟩ := Prod.mk.inj (Outcome.done.inj hdone)
    exact hk
  | cons act acts ih =>
    unfold runCallback at hdone
    obtain ⟨⟨loop₁, log₁⟩, hact, hdone⟩ := Outcome.bind_eq_done.mp hdone
    obtain ⟨⟨loop₂, log₂⟩, hacts, hpure⟩ := Outcome.bind_eq_done.mp hdone
    obtain ⟨rfl, -⟩ := Prod.mk.inj (Outcome.done.inj hpure)
    exact ih (runAct_kept hp hk hact) hacts

theorem invoke_kept (hp : Polls b n can I) (hk : Kept n I loop)
    (hdone : invoke b loop active d acts = .done (loop', log')) : Kept n I loop' := by
  unfold invoke at hdone
  obtain ⟨ev, -, hdone⟩ := Outcome.bind_eq_done.mp hdone
  split_ifs at hdone
  · obtain ⟨cb, -, hdone⟩ := Outcome.bind_eq_done.mp hdone
    obtain ⟨data, -, hdone⟩ := Outcome.bind_eq_done.mp hdone
    obtain ⟨⟨loop₁, log₁⟩, hrun, hpure⟩ := Outcome.bind_eq_done.mp hdone
    obtain ⟨rfl, -⟩ := Prod.mk.inj (Outcome.done.inj hpure)
    exact runCallback_kept hp hk hrun
  · obtain ⟨rfl, -⟩ := Prod.mk.inj (Outcome.done.inj hdone)
    exact hk

theorem dispatch_kept (hp : Polls b n can I) (hk : Kept n I loop)
    (hdone : dispatch b behave loop j actives = .done (loop', log')) : Kept n I loop' := by
  induction actives generalizing loop log' j with
  | nil =>
    obtain ⟨rfl, -⟩ := Prod.mk.inj (Outcome.done.inj hdone)
    exact hk
  | cons active actives ih =>
    unfold dispatch at hdone
    obtain ⟨⟨loop₁, log₁⟩, hread, hdone⟩ := Outcome.bind_eq_done.mp hdone
    obtain ⟨⟨loop₂, log₂⟩, hwrite, hdone⟩ := Outcome.bind_eq_done.mp hdone
    obtain ⟨⟨loop₃, log₃⟩, hrest, hpure⟩ := Outcome.bind_eq_done.mp hdone
    obtain ⟨rfl, -⟩ := Prod.mk.inj (Outcome.done.inj hpure)
    exact ih (invoke_kept hp (invoke_kept hp hk hread) hwrite) hrest

/-! ## A batch -/

theorem processActives_kept {r : R} {processed : Int} (hp : Polls b n can I) (hk : Kept n I loop) (hcan : can r)
    (hdone : processActives b clock r behave loop = .done (loop', processed, log')) : Kept n I loop' := by
  obtain ⟨⟨log, hr⟩, hi⟩ := id hk
  obtain ⟨timeout, -, hdone⟩ := Outcome.bind_eq_done.mp hdone
  obtain ⟨⟨poller, actives⟩, hpoll, hdone⟩ := Outcome.bind_eq_done.mp hdone
  obtain ⟨⟨loop₁, log₁⟩, hdispatch, hpure⟩ := Outcome.bind_eq_done.mp hdone
  obtain ⟨rfl, -⟩ := Prod.mk.inj (Outcome.done.inj hpure)
  rcases hp.polled timeout hr hi hcan with hwaits | ⟨actives', hpoll', -⟩
  · rw [hwaits] at hpoll
    cases hpoll
  · obtain ⟨rfl, rfl⟩ := Prod.mk.inj (Outcome.done.inj (hpoll'.symm.trans hpoll))
    exact dispatch_kept hp hk hdispatch

theorem processActives_ok {r : R} (hp : Polls b n can I) (hserves : b.serves n) (hk : Kept n I loop)
    (htimeout : Timer.get_shortest_msec clock loop.timers = .done timeout) (hcan : can r)
    (hvalid : ∀ j d, ∀ act ∈ behave j d, act.Valid) : processActives b clock r behave loop ≠ .fault := by
  obtain ⟨⟨log, hr⟩, hi⟩ := hk
  unfold processActives
  rw [htimeout, Outcome.done_bind]
  rcases hp.polled timeout hr hi hcan with hwaits | ⟨actives, hpoll, hfds⟩
  · rw [hwaits]
    simp
  · obtain ⟨r, hdispatch⟩ := dispatch_returns hserves hr hfds hvalid (j := 0)
    rw [hpoll, Outcome.done_bind]
    dsimp only
    rw [hdispatch]
    simp

/-! ## Runs -/

theorem Answered.kept {request : Request C D K R} (hp : Polls b n can I) (hk : Kept n I loop)
    (hvalid : request.Valid can) (hstep : Answered b loop request loop') : Kept n I loop' := by
  cases request with
  | act a =>
    obtain ⟨log, hact⟩ := hstep
    exact runAct_kept hp hk hact
  | query fd =>
    obtain ⟨event, -, rfl⟩ := hstep
    exact hk
  | process clock r behave =>
    obtain ⟨processed, log, hprocess⟩ := hstep
    exact processActives_kept hp hk hvalid.1 hprocess
  | timers turns =>
    obtain ⟨timers, processed, fired, -, rfl⟩ := hstep
    obtain ⟨⟨log, hr⟩, hi⟩ := hk
    exact ⟨⟨log, hr.congr rfl rfl fun _ _ => rfl⟩, hp.timers hi⟩

theorem Kept.inBounds (hp : Polls b n can I) (hserves : b.serves n) (hk : Kept n I loop) : InBounds b can loop := by
  obtain ⟨log, hr⟩ := hk.1
  have hsize : loop.events.length = loop.setsize := hr.length.trans hr.setsize.symm
  refine ⟨hsize, fun a => runAct_iff hserves hr, fun fd => query_event_iff hsize, ?_⟩
  intro clock timeout r behave htimeout hvalid
  exact processActives_ok hp hserves hk htimeout hvalid.1 hvalid.2

/-- A request that meets the condition, and returned. -/
def Served (b : Poller C D P K R) (can : R → Prop) (loop : event_loop C D P) (request : Request C D K R)
    (loop' : event_loop C D P) : Prop :=
  request.Valid can ∧ Answered b loop request loop'

theorem inBounds_of_run {malloc : Bool} {poller : Option P} {timers : Option (Timer.timer_heap C D)}
    {requests : List (Request C D K R)} (hp : Polls b n can I) (hserves : b.serves n)
    (hnew : event_loop_create malloc poller timers n = some loop₀) (hi : I loop₀)
    (hrun : Run (Served b can) loop₀ requests loop) : InBounds b can loop := by
  have hkept : Kept n I loop := by
    apply hrun.invariant _ ⟨⟨[], new_recorded hnew⟩, hi⟩
    exact fun loop request loop' hk hstep => hstep.2.kept hp hk hstep.1
  exact hkept.inBounds hp hserves

/-! ## epoll -/

/-- `epoll_wait` answers with at most `maxevents` entries, each with the data of a descriptor in the set and with
any flags. -/
def Possible (wait : epoll_wait) : Prop :=
  ∀ set maxevents timeout answer, wait set maxevents timeout = some answer →
    answer.length ≤ maxevents ∧ ∀ e ∈ answer, ∃ fd, ∃ ee ∈ set fd, e.fd = ee.fd

/-- The data that the kernel has are descriptors of the loop. -/
structure Echoes (n : Int) (loop : event_loop C D epoll) : Prop where
  setsize : loop.setsize = n
  data : ∀ fd, ∀ ee ∈ loop.poller.interest fd, 0 ≤ ee.fd ∧ ee.fd < n

theorem Echoes.changed {loop loop' : event_loop C D epoll} {op : EPOLL_CTL} {ee : epoll_event} {willing : Bool}
    {q : Int} (he : Echoes n loop) (hctl : epoll_ctl willing loop.poller op fd ee = (loop'.poller, q))
    (hsize : loop'.setsize = loop.setsize) (hfd : 0 ≤ ee.fd ∧ ee.fd < n) : Echoes n loop' := by
  refine ⟨hsize.trans he.setsize, ?_⟩
  intro fd' ee' hee'
  rcases (epoll_ctl_cases hctl).2 with ⟨-, hinterest⟩ | ⟨-, hinterest⟩
  · rw [hinterest, Function.update_apply] at hee'
    split_ifs at hee'
    · cases hee'
    · rw [← Option.some.inj hee']
      exact hfd
    · exact he.data fd' ee' hee'
  · rw [hinterest] at hee'
    exact he.data fd' ee' hee'

theorem epoll_polls : Polls (epoll.build : Poller C D epoll Bool epoll_wait) n Possible (Echoes n) where
  created := by
    intro k loop fd event cb data loop' r he hc
    have hsize := he.setsize
    cases hc with
    | refused hfd => exact he
    | failed hfd hget hadd hq =>
      have hrange : 0 ≤ fd ∧ fd < n := by omega
      exact he.changed (addevent_ctl hget hadd) rfl hrange
    | added hfd hget hadd =>
      have hrange : 0 ≤ fd ∧ fd < n := by omega
      exact he.changed (addevent_ctl hget hadd) rfl hrange
  deleted := by
    intro k loop fd event loop' r he hd
    have hsize := he.setsize
    cases hd with
    | refused hfd => exact he
    | absent hfd hget hnone => exact he
    | failed hfd hget hsome hdel hq =>
      have h0 := (lt_of_get_event hget).1
      exact he.changed (delevent_ctl hget hdel) rfl ⟨h0, hsize ▸ hfd⟩
    | removed hfd hget hsome hdel hkeep hlower =>
      have h0 := (lt_of_get_event hget).1
      exact he.changed (delevent_ctl hget hdel) rfl ⟨h0, hsize ▸ hfd⟩
  timers he := ⟨he.setsize, he.data⟩
  polled := by
    intro loop log wait timeout hr he hcan
    show epoll.poller_poll wait loop timeout = .running ∨ _
    unfold epoll.poller_poll
    cases hanswer : wait loop.poller.interest loop.setsize timeout with
    | none => exact Or.inl rfl
    | some answer =>
      obtain ⟨hroom, hdata⟩ := hcan _ _ _ _ hanswer
      refine Or.inr ⟨answer.map epoll.active, ?_, ?_⟩
      · show epoll.poller_poll wait loop timeout = _
        unfold epoll.poller_poll
        rw [hanswer]
        exact (congrArg (· >>= _) (fillActives_eq (by rw [List.length_nil]; omega))).trans rfl
      · intro active hactive
        obtain ⟨e, he', rfl⟩ := List.mem_map.mp hactive
        obtain ⟨fd, ee, hee, hfd⟩ := hdata e he'
        have hrange := he.data fd ee hee
        rw [← hfd] at hrange
        exact hrange

/-! ## select -/

theorem select_polls (hn : n ≤ FD_SETSIZE) :
    Polls (select.build : Poller C D select Unit SelectCall) n (fun _ => True) (Bounded n) where
  created hb hc := hb.created hc
  deleted hb hd := hb.deleted hd
  timers hb := ⟨hb.length, hb.maxfd, hb.bound⟩
  polled := by
    intro loop log call timeout hr hb _
    right
    have hmaxfd := hb.maxfd
    have hlength := hb.length
    have hsize := hr.setsize
    generalize hanswer : call (loop.maxfd + 1) loop.poller.rfds loop.poller.wfds (timeout.tdiv 1000)
      (timeout.tmod 1000 * 1000) = answer
    obtain ⟨retval, crfds, cwfds⟩ := answer
    show ∃ actives, select.poller_poll call loop timeout = _ ∧ _
    unfold select.poller_poll
    dsimp only
    rw [hanswer]
    by_cases hsome : retval > 0
    · have hscan : select.scan loop crfds cwfds [] (List.range (loop.maxfd + 1).toNat) = _ :=
        scan_eq (by omega) (fun j hj => by have := List.mem_range.mp hj; omega)
          (by rw [List.length_nil, List.length_range]; omega)
      simp only [if_pos hsome]
      refine ⟨_, (congrArg (· >>= _) hscan).trans rfl, ?_⟩
      intro active hactive
      obtain ⟨j, hj, rfl⟩ := List.mem_map.mp hactive
      have hlt := List.mem_range.mp (List.mem_filter.mp hj).1
      unfold scanned
      dsimp only
      omega
    · simp only [if_neg hsome]
      exact ⟨[], rfl, by simp⟩

/-! ## Both builds -/

theorem new_echoes {malloc created : Bool} {timers : Option (Timer.timer_heap C D)} {loop : event_loop C D epoll}
    (hnew : event_loop_create malloc (epoll.poller_create created) timers n = some loop) : Echoes n loop := by
  obtain ⟨-, hpoller, hsize, -, -⟩ := event_loop_create_some hnew
  refine ⟨hsize, ?_⟩
  simp [poller_create_some hpoller]

/-- In every run of either build where no negative descriptor is passed to `delete_event` or `query_event`, each
index into the arrays is in bounds in every state, for whatever the kernel can report. A call with a negative
descriptor is out of bounds. -/
theorem indexes_in_bounds_of_run {malloc created : Bool} {timers : Option (Timer.timer_heap C D)} :
    (∀ {loop₀ loop : event_loop C D epoll} {requests : List (Request C D Bool epoll_wait)},
      event_loop_create malloc (epoll.poller_create created) timers n = some loop₀ →
        Run (Served epoll.build Possible) loop₀ requests loop → InBounds epoll.build Possible loop) ∧
    (n ≤ FD_SETSIZE → ∀ {loop₀ loop : event_loop C D select} {requests : List (Request C D Unit SelectCall)},
      event_loop_create malloc (select.poller_create created) timers n = some loop₀ →
        Run (Served select.build fun _ => True) loop₀ requests loop →
          InBounds select.build (fun _ => True) loop) := by
  constructor
  · intro loop₀ loop requests hnew hrun
    exact inBounds_of_run epoll_polls trivial hnew (new_echoes hnew) hrun
  · intro hn loop₀ loop requests hnew hrun
    exact inBounds_of_run (select_polls hn) hn hnew (new_bounded hnew) hrun

theorem indexes_in_bounds_sample :
    InBounds epoll.build Possible busyEpoll ∧ InBounds select.build (fun _ => True) busySelect := by
  have hepoll : event_loop_create true (epoll.poller_create true) (some Timer.newHeap) 4 =
      some (newLoop (⟨fun _ => none, []⟩ : epoll)) := rfl
  have hselect : event_loop_create true (select.poller_create true) (some Timer.newHeap) 4 =
      some (newLoop (⟨fun _ => false, fun _ => false⟩ : select)) := rfl
  have hepoll_run : Run (Served epoll.build Possible) (newLoop (⟨fun _ => none, []⟩ : epoll))
      [.act (.create true 1 EV_RDABLE 7 0), .act (.create true 2 (EV_RDABLE ||| EV_WRABLE) 8 1),
        .act (.delete true 2 EV_RDABLE)] busyEpoll :=
    ((Run.nil.snoc ⟨trivial, _, rfl⟩).snoc ⟨trivial, _, rfl⟩).snoc ⟨(by decide : (0 : Int) ≤ 2), _, rfl⟩
  have hselect_run : Run (Served select.build fun _ => True) (newLoop (⟨fun _ => false, fun _ => false⟩ : select))
      [.act (.create () 1 EV_RDABLE 7 0), .act (.create () 2 (EV_RDABLE ||| EV_WRABLE) 8 1),
        .act (.delete () 2 EV_RDABLE)] busySelect :=
    ((Run.nil.snoc ⟨trivial, _, rfl⟩).snoc ⟨trivial, _, rfl⟩).snoc ⟨(by decide : (0 : Int) ≤ 2), _, rfl⟩
  exact ⟨indexes_in_bounds_of_run.1 hepoll hepoll_run,
    indexes_in_bounds_of_run.2 (by decide) hselect hselect_run⟩

/-- On a new loop `events[-1]` is read for descriptor -1. -/
theorem negative_descriptor_reads :
    event_loop_create true (epoll.poller_create true) (some Timer.newHeap) 4 =
      some (newLoop (⟨fun _ => none, []⟩ : epoll)) ∧
    event_loop_create true (select.poller_create true) (some Timer.newHeap) 4 =
      some (newLoop (⟨fun _ => false, fun _ => false⟩ : select)) ∧
    delete_event epoll.build true (newLoop (⟨fun _ => none, []⟩ : epoll)) (-1) EV_RDABLE = .fault ∧
    query_event (newLoop (⟨fun _ => none, []⟩ : epoll)) (-1) = .fault ∧
    delete_event select.build () (newLoop (⟨fun _ => false, fun _ => false⟩ : select)) (-1) EV_RDABLE = .fault ∧
    query_event (newLoop (⟨fun _ => false, fun _ => false⟩ : select)) (-1) = .fault :=
  ⟨rfl, rfl, rfl, rfl, rfl, rfl⟩

end Akio.Event
