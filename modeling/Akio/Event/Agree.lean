import Akio.Event.Select

/-!
# When the two builds call the same callbacks

With epoll a callback is called for what is ready of the registered directions. With select it is called only
where there is a timer, and errors and hangups count differently.
-/

namespace Akio.Event

variable {C D P K R : Type} {b : Poller C D P K R} {loop loop' : event_loop C D P} {n clock clock' fd : Int}
  {d : Direction} {log : List (Entry C D)} {ready : BitVec 32} {heap : Timer.timer_heap C D} {v : Nat → Nat}
  {m : Nat}

/-! ## What is called -/

/-- The callbacks that a call of `process_events` made. One that waits for ever makes none. -/
def callsMade : Outcome (event_loop C D P × Int × List (Entry C D)) → Option (List (Int × Direction))
  | .done (_, _, log) => some (called log)
  | .running => some []
  | .fault => none

/-- Both calls keep to defined behaviour, and make the same callbacks up to order. -/
def Agree {P' : Type} (x : Outcome (event_loop C D P × Int × List (Entry C D)))
    (y : Outcome (event_loop C D P' × Int × List (Entry C D))) : Prop :=
  ∃ calls calls', callsMade x = some calls ∧ callsMade y = some calls' ∧ calls.Perm calls'

theorem agree_iff {P' : Type} {x : Outcome (event_loop C D P × Int × List (Entry C D))}
    {y : Outcome (event_loop C D P' × Int × List (Entry C D))} {calls calls' : List (Int × Direction)}
    (hx : callsMade x = some calls) (hy : callsMade y = some calls') : Agree x y ↔ calls.Perm calls' := by
  constructor
  · rintro ⟨_, _, hx', hy', hperm⟩
    obtain rfl := Option.some.inj (hx.symm.trans hx')
    obtain rfl := Option.some.inj (hy.symm.trans hy')
    exact hperm
  · exact fun hperm => ⟨calls, calls', hx, hy, hperm⟩

/-- Callbacks that do nothing to the registry. -/
def idle : Nat → Direction → List (Act C D K) := fun _ _ => []

theorem processActives_calls {r : R} {timeout : Int} {actives : List ev_active} {sees : Int → Direction → Prop}
    (hr : Recorded n loop log) (htimeout : Timer.get_shortest_msec clock loop.timers = .done timeout)
    (hpoll : b.poller_poll r loop timeout = .done (loop.poller, actives)) (hreports : Reports loop sees actives) :
    callsMade (processActives b clock r idle loop) = some (actives.flatMap (callsOf loop)) := by
  have hfds : ∀ active ∈ actives, 0 ≤ active.fd ∧ active.fd < n := by
    rw [← hr.length]
    exact hreports.range
  obtain ⟨log', hdispatch, hcalled⟩ := dispatch_calls (b := b) (j := 0) hr hfds
  unfold processActives
  rw [htimeout, Outcome.done_bind, hpoll, Outcome.done_bind]
  dsimp only
  rw [← hcalled]
  exact (congrArg callsMade (congrArg (· >>= _) hdispatch)).trans rfl

/-! ## Loops of both builds -/

/-- The loop of `n` entries after some calls of `create_event` and `delete_event`. -/
def Reached (b : Poller C D P K R) (poller : Option P) (n : Int) (loop : event_loop C D P) : Prop :=
  ∃ malloc timers loop₀ acts, event_loop_create malloc poller timers n = some loop₀ ∧
    Run (Requested b) loop₀ acts loop

theorem Requested.recorded {act : Act C D K} (hr : Recorded n loop log) (hreq : Requested b loop act loop') :
    ∃ log, Recorded n loop' log :=
  hreq.elim (fun _ _ _ _ _ _ _ hc => ⟨_, create_event_recorded hr hc⟩)
    fun _ _ _ _ hd => ⟨_, delete_event_recorded hr hd⟩

theorem Reached.invariant {poller : Option P} {I : event_loop C D P → Prop} (h : Reached b poller n loop)
    (hnew : ∀ malloc timers loop₀, event_loop_create malloc poller timers n = some loop₀ → I loop₀)
    (hstep : ∀ loop act loop', I loop → Requested b loop act loop' → I loop') : I loop := by
  obtain ⟨malloc, timers, loop₀, acts, hcreate, hrun⟩ := h
  exact hrun.invariant hstep (hnew malloc timers loop₀ hcreate)

theorem Reached.recorded {poller : Option P} (h : Reached b poller n loop) : ∃ log, Recorded n loop log := by
  apply h.invariant
  · exact fun _ _ _ hnew => ⟨[], new_recorded hnew⟩
  · rintro loop act loop' ⟨log, hr⟩ hreq
    exact hreq.recorded hr

theorem Reached.bounded {poller : Option P} (h : Reached b poller n loop) : Bounded n loop := by
  apply h.invariant
  · exact fun _ _ _ hnew => new_bounded hnew
  · exact fun _ _ _ hb hreq => hreq.bounded hb

theorem Reached.mirrors {loop : event_loop C D epoll} (h : Reached epoll.build (epoll.poller_create true) n loop) :
    Mirrors loop :=
  h.invariant (fun _ _ _ hnew => new_mirrors hnew) fun _ _ _ hm hreq => hreq.mirrors hm

theorem Reached.selected {loop : event_loop C D select} (h : Reached select.build (select.poller_create true) n loop) :
    Selected loop := by
  apply h.invariant _ fun _ _ _ hs hreq => hreq.selected hs
  intro malloc timers loop₀ hnew fd d
  obtain ⟨-, hpoller, -, -, -⟩ := event_loop_create_some hnew
  rw [new_mask hnew fd, ← Option.some.inj hpoller]
  cases d <;> simp [select.set, EV_NONE]

/-! ## The two builds -/

theorem epoll_calls {loop : event_loop C D epoll} {ready : Int → BitVec 32} {wait : epoll_wait} (clock : Int)
    (h : Reached epoll.build (epoll.poller_create true) n loop) (hheap : Timer.HeapOf heap v m)
    (hwait : WaitsFor ready wait) :
    ∃ calls, callsMade (processActives epoll.build clock wait idle { loop with timers := heap }) = some calls ∧
      calls.Nodup ∧ ∀ p, p ∈ calls ↔ mask loop p.1 &&& p.2.mask ≠ 0 ∧ epollSees p.2 (ready p.1) := by
  obtain ⟨log, hr⟩ := h.recorded
  have hr' : Recorded n { loop with timers := heap } log := hr.congr rfl rfl fun _ _ => rfl
  have hm : Mirrors { loop with timers := heap } := h.mirrors.congr rfl rfl
  have hsize : loop.events.length = loop.setsize := hr.length.trans hr.setsize.symm
  have htimeout := Timer.get_shortest_msec_spec clock hheap
  rcases epoll_poll_spec hm hsize hwait (if m = 0 then -1 else max 0 (min (Timer.due heap.timers (v 0) - clock)
      Timer.INT32_MAX)) with ⟨hpoll, -, hquiet⟩ | ⟨actives, hpoll, hreports⟩
  · refine ⟨[], ?_, List.nodup_nil, ?_⟩
    · unfold processActives
      rw [htimeout, Outcome.done_bind]
      exact (congrArg callsMade (congrArg (· >>= _) hpoll)).trans rfl
    · intro p
      apply iff_of_false List.not_mem_nil
      rintro ⟨hmask, hsees⟩
      exact hquiet p.1 p.2 hmask hsees
  · exact ⟨_, processActives_calls hr' htimeout hpoll hreports, nodup_callsOf hreports.distinct,
      fun p => hreports.mem_calls⟩

theorem select_calls {loop : event_loop C D select} {ready : Int → BitVec 32} {call : SelectCall} (clock : Int)
    (h : Reached select.build (select.poller_create true) n loop) (hn : n ≤ FD_SETSIZE)
    (hheap : Timer.HeapOf heap v m) (hcall : SelectsFor ready call) :
    ∃ calls, callsMade (processActives select.build clock call idle { loop with timers := heap }) = some calls ∧
      calls.Nodup ∧ ∀ p, p ∈ calls ↔ mask loop p.1 &&& p.2.mask ≠ 0 ∧ heap.now ≠ 0 ∧ selectSees p.2 (ready p.1) := by
  obtain ⟨log, hr⟩ := h.recorded
  have hr' : Recorded n { loop with timers := heap } log := hr.congr rfl rfl fun _ _ => rfl
  have hnow := hheap.now
  have htimeout := Timer.get_shortest_msec_spec clock hheap
  by_cases hempty : m = 0
  · rw [if_pos hempty] at htimeout
    have hreports : Reports { loop with timers := heap } (fun _ _ => False) [] := ⟨by simp, by simp, by simp⟩
    refine ⟨_, processActives_calls hr' htimeout (select_poll_fails hcall (by omega)) hreports, List.nodup_nil, ?_⟩
    intro p
    exact iff_of_false List.not_mem_nil fun h => h.2.1 (by omega)
  · rw [if_neg hempty] at htimeout
    have hb := h.bounded
    have hs : Selected { loop with timers := heap } := h.selected
    have hb' : Bounded n { loop with timers := heap } := ⟨hb.length, hb.maxfd, hb.bound⟩
    have hsize : loop.events.length = loop.setsize := hr.length.trans hr.setsize.symm
    have hserves : loop.setsize ≤ FD_SETSIZE := hr.setsize.trans_le hn
    obtain ⟨actives, hpoll, hreports⟩ := select_poll_spec hs hb' hsize hserves hcall (Int.le_max_left 0 _)
    refine ⟨_, processActives_calls hr' htimeout hpoll hreports, nodup_callsOf hreports.distinct, ?_⟩
    intro p
    have hsome : heap.now ≠ 0 := by omega
    rw [hreports.mem_calls, and_iff_right hsome]
    rfl

/-! ## When they agree -/

/-- What epoll does not call for. -/
def Quiet : Direction → BitVec 32 → Prop
  | .read, ready => ready &&& EPOLLIN = 0
  | .write, ready => ready &&& (EPOLLOUT ||| EPOLLERR ||| EPOLLHUP) = 0

/-- A hangup or an error comes with what both builds look at. -/
def SeenAlike : Direction → BitVec 32 → Prop
  | .read, ready => ready &&& (EPOLLHUP ||| EPOLLERR) ≠ 0 → ready &&& EPOLLIN ≠ 0
  | .write, ready => ready &&& EPOLLHUP ≠ 0 → ready &&& (EPOLLOUT ||| EPOLLERR) ≠ 0

theorem epollSees_iff : epollSees d ready ↔ ¬ Quiet d ready := by
  cases d with
  | read => exact Iff.rfl
  | write =>
    unfold epollSees Quiet
    dsimp only
    rw [← ne_eq, and_or_ne, and_or_ne, or_assoc]

theorem seenAlike_iff : (epollSees d ready ↔ selectSees d ready) ↔ SeenAlike d ready := by
  unfold epollSees selectSees readable writable SeenAlike
  cases d with
  | read =>
    simp only [decide_eq_true_eq, and_or_ne]
    tauto
  | write =>
    simp only [decide_eq_true_eq, and_or_ne]
    tauto

/-- The builds agree where nothing that is registered is ready, if there is no timer, and where errors and
hangups make no difference, if there is one. -/
theorem builds_agree_iff {le : event_loop C D epoll} {ls : event_loop C D select} {ready : Int → BitVec 32}
    {wait : epoll_wait} {call : SelectCall} (hn : n ≤ FD_SETSIZE)
    (he : Reached epoll.build (epoll.poller_create true) n le)
    (hs : Reached select.build (select.poller_create true) n ls) (hsame : mask le = mask ls)
    (hheap : Timer.HeapOf heap v m) (hwait : WaitsFor ready wait) (hcall : SelectsFor ready call) :
    Agree (processActives epoll.build clock wait idle { le with timers := heap })
        (processActives select.build clock' call idle { ls with timers := heap }) ↔
      (heap.now = 0 → ∀ fd d, mask le fd &&& d.mask ≠ 0 → Quiet d (ready fd)) ∧
      (heap.now ≠ 0 → ∀ fd d, mask le fd &&& d.mask ≠ 0 → SeenAlike d (ready fd)) := by
  obtain ⟨calls, hepoll, hnodup, hmem⟩ := epoll_calls clock he hheap hwait
  obtain ⟨calls', hselect, hnodup', hmem'⟩ := select_calls clock' hs hn hheap hcall
  rw [agree_iff hepoll hselect, List.perm_ext_iff_of_nodup hnodup hnodup']
  simp only [hmem, hmem', ← hsame]
  by_cases hempty : heap.now = 0
  · constructor
    · intro h
      refine ⟨?_, fun hsome => absurd hempty hsome⟩
      intro _ fd d hmask
      by_contra hloud
      exact ((h (fd, d)).mp ⟨hmask, epollSees_iff.mpr hloud⟩).2.1 hempty
    · rintro ⟨hquiet, -⟩ p
      apply iff_of_false
      · rintro ⟨hmask, hsees⟩
        exact epollSees_iff.mp hsees (hquiet hempty p.1 p.2 hmask)
      · exact fun h => h.2.1 hempty
  · constructor
    · intro h
      refine ⟨fun hnow => absurd hnow hempty, ?_⟩
      intro _ fd d hmask
      apply seenAlike_iff.mp
      constructor
      · exact fun hsees => ((h (fd, d)).mp ⟨hmask, hsees⟩).2.2
      · exact fun hsees => ((h (fd, d)).mpr ⟨hmask, hempty, hsees⟩).2
    · rintro ⟨-, halike⟩ p
      apply and_congr_right
      intro hmask
      rw [seenAlike_iff.mpr (halike hempty p.1 p.2 hmask), and_iff_right hempty]

/-- The loop of four entries where the read event of descriptor 1 is registered. -/
def listening {P : Type} (poller : P) : event_loop Nat Nat P :=
  { newLoop poller with
    maxfd := 1
    events := (newLoop poller).events.set 1 { event := EV_RDABLE, data := some 0, read := some 7, write := none } }

def listeningEpoll : event_loop Nat Nat epoll :=
  listening ⟨Function.update (fun _ => none) 1 (some ⟨EPOLLIN, 1⟩), [⟨.ADD, 1, false⟩]⟩

def listeningSelect : event_loop Nat Nat select :=
  listening ⟨Function.update (fun _ => false) 1 true, fun _ => false⟩

theorem reached_epoll : Reached epoll.build (epoll.poller_create true) 4 listeningEpoll :=
  ⟨true, some Timer.newHeap, _, [.create true 1 EV_RDABLE 7 0], rfl,
    Run.nil.snoc ⟨by decide, by decide, Or.inl rfl, 0, rfl⟩⟩

theorem reached_select : Reached select.build (select.poller_create true) 4 listeningSelect :=
  ⟨true, some Timer.newHeap, _, [.create () 1 EV_RDABLE 7 0], rfl,
    Run.nil.snoc ⟨by decide, by decide, Or.inl rfl, 0, rfl⟩⟩

/-- The loop that a call of the registry leaves. -/
def after (b : Poller Nat Nat P K R) (loop : event_loop Nat Nat P) (act : Act Nat Nat K) : event_loop Nat Nat P :=
  match runAct b loop act with
  | .done (loop', _) => loop'
  | _ => loop

/-- Descriptor 1 is registered for reading, descriptor 2 for both, and then no longer for reading. -/
def busyCalls (k : K) : List (Act Nat Nat K) :=
  [.create k 1 EV_RDABLE 7 0, .create k 2 (EV_RDABLE ||| EV_WRABLE) 8 1, .delete k 2 EV_RDABLE]

def busyEpoll : event_loop Nat Nat epoll := (busyCalls true).foldl (after epoll.build) (newLoop ⟨fun _ => none, []⟩)

def busySelect : event_loop Nat Nat select :=
  (busyCalls ()).foldl (after select.build) (newLoop ⟨fun _ => false, fun _ => false⟩)

theorem busy_epoll : Reached epoll.build (epoll.poller_create true) 4 busyEpoll :=
  ⟨true, some Timer.newHeap, _, busyCalls true, rfl,
    ((Run.nil.snoc ⟨by decide, by decide, Or.inl rfl, 0, rfl⟩).snoc
      ⟨by decide, by decide, Or.inr (Or.inr rfl), 0, rfl⟩).snoc ⟨by decide, by decide, Or.inl rfl, 0, rfl⟩⟩

theorem busy_select : Reached select.build (select.poller_create true) 4 busySelect :=
  ⟨true, some Timer.newHeap, _, busyCalls (), rfl,
    ((Run.nil.snoc ⟨by decide, by decide, Or.inl rfl, 0, rfl⟩).snoc
      ⟨by decide, by decide, Or.inr (Or.inr rfl), 0, rfl⟩).snoc ⟨by decide, by decide, Or.inl rfl, 0, rfl⟩⟩

/-- Descriptor 1 is readable, and the others are too, can be written to and were hung up. -/
def busyReady (fd : Int) : BitVec 32 := if fd = 1 then EPOLLIN else EPOLLIN ||| EPOLLOUT ||| EPOLLHUP

theorem builds_agree_sample :
    callsMade (processActives epoll.build 0 (waitOf busyReady) idle { busyEpoll with timers := Timer.armedHeap }) =
      some [(1, .read), (2, .write)] ∧
    Agree (processActives epoll.build 0 (waitOf busyReady) idle { busyEpoll with timers := Timer.armedHeap })
      (processActives select.build 0 (selectOf busyReady) idle { busySelect with timers := Timer.armedHeap }) := by
  obtain ⟨v, n, f, hg⟩ :=
    Timer.good_of_run (show Timer.timer_heap_create true true 16 = some Timer.newHeap from rfl) Timer.armed_run
  refine ⟨by decide, (builds_agree_iff (by decide) busy_epoll busy_select rfl hg.heapOf (waitsFor_wait_of _)
    (selectsFor_select_of _)).mpr ⟨fun h => absurd h (by decide), ?_⟩⟩
  intro _ fd d hmask
  unfold busyReady
  cases d with
  | read => split_ifs <;> exact fun _ => by decide
  | write =>
    split_ifs
    · exact fun h => absurd h (by decide)
    · exact fun _ => by decide

/-- Without a timer select calls nothing for a descriptor that is readable, and with one it calls the read
callback of a descriptor that was hung up, which epoll does not. -/
theorem builds_differ :
    Reached epoll.build (epoll.poller_create true) 4 listeningEpoll ∧
    Reached select.build (select.poller_create true) 4 listeningSelect ∧
    mask listeningEpoll = mask listeningSelect ∧
    (∀ ready, WaitsFor ready (waitOf ready) ∧ SelectsFor ready (selectOf ready)) ∧
    ¬ Agree
      (processActives epoll.build 0 (waitOf fun _ => EPOLLIN) idle { listeningEpoll with timers := Timer.newHeap })
      (processActives select.build 0 (selectOf fun _ => EPOLLIN) idle
        { listeningSelect with timers := Timer.newHeap }) ∧
    ¬ Agree
      (processActives epoll.build 0 (waitOf fun _ => EPOLLHUP) idle { listeningEpoll with timers := Timer.armedHeap })
      (processActives select.build 0 (selectOf fun _ => EPOLLHUP) idle
        { listeningSelect with timers := Timer.armedHeap }) := by
  refine ⟨reached_epoll, reached_select, rfl, fun ready => ⟨waitsFor_wait_of ready, selectsFor_select_of ready⟩, ?_, ?_⟩
  · have hepoll : callsMade (processActives epoll.build 0 (waitOf fun _ => EPOLLIN) idle
        { listeningEpoll with timers := Timer.newHeap }) = some [(1, .read)] := by decide
    have hselect : callsMade (processActives select.build 0 (selectOf fun _ => EPOLLIN) idle
        { listeningSelect with timers := Timer.newHeap }) = some [] := by decide
    rw [agree_iff hepoll hselect]
    decide
  · have hepoll : callsMade (processActives epoll.build 0 (waitOf fun _ => EPOLLHUP) idle
        { listeningEpoll with timers := Timer.armedHeap }) = some [] := by decide
    have hselect : callsMade (processActives select.build 0 (selectOf fun _ => EPOLLHUP) idle
        { listeningSelect with timers := Timer.armedHeap }) = some [(1, .read)] := by decide
    rw [agree_iff hepoll hselect]
    decide

end Akio.Event
