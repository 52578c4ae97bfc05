import Akio.Event.History

/-!
# What the kernel watches

With epoll the kernel has the registered directions of every descriptor, and every operation that is asked of it
is one that it can do.
-/

namespace Akio.Event

variable {C D : Type} {loop loop' loop₀ : event_loop C D epoll} {poller poller' : epoll} {fd q r : Int}
  {event : BitVec 32} {cb : C} {data : D} {willing : Bool} {op : EPOLL_CTL} {ee : epoll_event}

/-- The kernel watches `fd` for what is registered. -/
structure Watched (loop : event_loop C D epoll) (fd : Int) (ee : epoll_event) : Prop where
  data : ee.fd = fd
  read : ee.events &&& EPOLLIN ≠ 0 ↔ mask loop fd &&& EV_RDABLE ≠ 0
  write : ee.events &&& EPOLLOUT ≠ 0 ↔ mask loop fd &&& EV_WRABLE ≠ 0
  only : ee.events &&& ~~~(EPOLLIN ||| EPOLLOUT) = 0

structure Mirrors (loop : event_loop C D epoll) : Prop where
  present : ∀ fd, (loop.poller.interest fd).isSome ↔ mask loop fd ≠ EV_NONE
  watched : ∀ fd, ∀ ee ∈ loop.poller.interest fd, Watched loop fd ee
  legal : ∀ ctl ∈ loop.poller.ctls, ctl.legal

/-- `events`, `maxfd` and the set of the kernel are as they were. -/
structure Unchanged (loop loop' : event_loop C D epoll) : Prop where
  events : loop'.events = loop.events
  maxfd : loop'.maxfd = loop.maxfd
  interest : loop'.poller.interest = loop.poller.interest

/-! ## `epoll_ctl` -/

theorem epoll_ctl_cases (h : epoll_ctl willing poller op fd ee = (poller', q)) :
    poller'.ctls = poller.ctls ++ [{ op, fd, present := (poller.interest fd).isSome }] ∧
    (q = 0 ∧ poller'.interest = Function.update poller.interest fd (if op = .DEL then none else some ee) ∨
      q = -1 ∧ poller'.interest = poller.interest) := by
  unfold epoll_ctl at h
  by_cases hok : willing ∧ Ctl.legal { op, fd, present := (poller.interest fd).isSome }
  · obtain ⟨rfl, rfl⟩ := Prod.mk.inj ((if_pos hok).symm.trans h)
    exact ⟨rfl, Or.inl ⟨rfl, rfl⟩⟩
  · obtain ⟨rfl, rfl⟩ := Prod.mk.inj ((if_neg hok).symm.trans h)
    exact ⟨rfl, Or.inr ⟨rfl, rfl⟩⟩

theorem addevent_ctl {ev : ev_event C D} (hget : getEvent loop fd = .done ev)
    (hadd : epoll.build.poller_addevent willing loop fd event = .done (poller, q)) :
    epoll_ctl willing loop.poller (if ev.event = EV_NONE then .ADD else .MOD) fd
      { events := epoll.flags (event ||| ev.event), fd } = (poller, q) := by
  simp only [epoll.build, epoll.poller_addevent, hget, Outcome.done_bind] at hadd
  exact Outcome.done.inj hadd

theorem delevent_ctl {ev : ev_event C D} (hget : getEvent loop fd = .done ev)
    (hdel : epoll.build.poller_delevent willing loop fd event = .done (poller, q)) :
    epoll_ctl willing loop.poller (if ev.event &&& ~~~event = EV_NONE then .DEL else .MOD) fd
      { events := epoll.flags (ev.event &&& ~~~event), fd } = (poller, q) := by
  simp only [epoll.build, epoll.poller_delevent, hget, Outcome.done_bind] at hdel
  exact Outcome.done.inj hdel

theorem flags_read : epoll.flags event &&& EPOLLIN ≠ 0 ↔ event &&& EV_RDABLE ≠ 0 := by
  unfold epoll.flags
  split_ifs <;> simp_all <;> decide

theorem flags_write : epoll.flags event &&& EPOLLOUT ≠ 0 ↔ event &&& EV_WRABLE ≠ 0 := by
  unfold epoll.flags
  split_ifs <;> simp_all <;> decide

theorem flags_only : epoll.flags event &&& ~~~(EPOLLIN ||| EPOLLOUT) = 0 := by
  unfold epoll.flags
  split_ifs <;> decide

/-! ## The registry and the kernel -/

theorem Watched.of_flags (h : mask loop fd = event) : Watched loop fd { events := epoll.flags event, fd } := by
  subst h
  exact ⟨rfl, flags_read, flags_write, flags_only⟩

theorem Watched.congr (hw : Watched loop fd ee) (h : mask loop' fd = mask loop fd) : Watched loop' fd ee := by
  obtain ⟨hdata, hread, hwrite, honly⟩ := hw
  rw [← h] at hread hwrite
  exact ⟨hdata, hread, hwrite, honly⟩

theorem Mirrors.legal_append (hm : Mirrors loop) {ctl : Ctl} (h : ctl.legal) :
    ∀ c ∈ loop.poller.ctls ++ [ctl], c.legal := by
  intro c hc
  rcases List.mem_append.mp hc with hc | hc
  · exact hm.legal c hc
  · rwa [List.mem_singleton.mp hc]

theorem Mirrors.congr (hm : Mirrors loop) (hevents : loop'.events = loop.events)
    (hpoller : loop'.poller = loop.poller) : Mirrors loop' := by
  have hmask : mask loop' = mask loop := mask_congr hevents
  refine ⟨?_, ?_, by rw [hpoller]; exact hm.legal⟩
  · rw [hpoller, hmask]
    exact hm.present
  · intro fd ee hee
    rw [hpoller] at hee
    exact (hm.watched fd ee hee).congr (by rw [hmask])

theorem Mirrors.failed (hm : Mirrors loop) (hevents : loop'.events = loop.events) {ctl : Ctl} (h : ctl.legal)
    (hinterest : loop'.poller.interest = loop.poller.interest)
    (hctls : loop'.poller.ctls = loop.poller.ctls ++ [ctl]) : Mirrors loop' := by
  have hmask : mask loop' = mask loop := mask_congr hevents
  refine ⟨?_, ?_, by rw [hctls]; exact hm.legal_append h⟩
  · rw [hinterest, hmask]
    exact hm.present
  · intro fd ee hee
    rw [hinterest] at hee
    exact (hm.watched fd ee hee).congr (by rw [hmask])

theorem Mirrors.changed (hm : Mirrors loop) (hmask : mask loop' = Function.update (mask loop) fd event)
    {ctl : Ctl} (h : ctl.legal)
    (hinterest : loop'.poller.interest = Function.update loop.poller.interest fd
      (if event = EV_NONE then none else some { events := epoll.flags event, fd }))
    (hctls : loop'.poller.ctls = loop.poller.ctls ++ [ctl]) : Mirrors loop' := by
  have hself : mask loop' fd = event := by rw [hmask, Function.update_self]
  have hother : ∀ fd', fd' ≠ fd → mask loop' fd' = mask loop fd' := by
    intro fd' hne
    rw [hmask, Function.update_of_ne hne]
  refine ⟨?_, ?_, by rw [hctls]; exact hm.legal_append h⟩
  · intro fd'
    rw [hinterest]
    by_cases hfd' : fd' = fd
    · rw [hfd', Function.update_self, hself]
      split_ifs with hnone <;> simp [hnone]
    · rw [Function.update_of_ne hfd', hother fd' hfd']
      exact hm.present fd'
  · intro fd' ee hee
    rw [hinterest] at hee
    by_cases hfd' : fd' = fd
    · subst hfd'
      rw [Function.update_self] at hee
      split_ifs at hee
      · cases hee
      · obtain rfl := Option.some.inj hee
        exact Watched.of_flags hself
    · rw [Function.update_of_ne hfd'] at hee
      exact (hm.watched fd' ee hee).congr (hother fd' hfd')

theorem Mirrors.created (hm : Mirrors loop) (hevent : event ≠ EV_NONE)
    (hc : Created epoll.build willing loop fd event cb data loop' r) :
    Mirrors loop' ∧ (r = -1 → Unchanged loop loop') := by
  have hlegal {ev : ev_event C D} (hget : getEvent loop fd = .done ev) :
      Ctl.legal ⟨if ev.event = EV_NONE then .ADD else .MOD, fd, (loop.poller.interest fd).isSome⟩ := by
    have hpresent := hm.present fd
    rw [mask_of_event hget] at hpresent
    unfold Ctl.legal
    split_ifs with hnone <;> simp_all
  cases hc with
  | refused hfd => exact ⟨hm, fun _ => ⟨rfl, rfl, rfl⟩⟩
  | @failed poller q ev hfd hget hadd hq =>
    obtain ⟨hctls, ⟨rfl, -⟩ | ⟨-, hinterest⟩⟩ := epoll_ctl_cases (addevent_ctl hget hadd)
    · exact absurd rfl hq
    · exact ⟨hm.failed rfl (hlegal hget) hinterest hctls, fun _ => ⟨rfl, rfl, hinterest⟩⟩
  | @added poller ev hfd hget hadd =>
    obtain ⟨hctls, ⟨-, hinterest⟩ | ⟨hq, -⟩⟩ := epoll_ctl_cases (addevent_ctl hget hadd)
    · have hop : (if ev.event = EV_NONE then EPOLL_CTL.ADD else .MOD) ≠ .DEL := by split_ifs <;> decide
      have hsome : ev.event ||| event ≠ EV_NONE := fun h => hevent (BitVec.or_eq_zero_iff.mp h).2
      rw [if_neg hop, BitVec.or_comm] at hinterest
      refine ⟨hm.changed (mask_set hget rfl) (hlegal hget) ?_ hctls, fun h => absurd h (by decide)⟩
      rw [if_neg hsome]
      exact hinterest
    · exact absurd hq (by decide)

theorem Mirrors.deleted (hm : Mirrors loop) (hd : Deleted epoll.build willing loop fd event loop' r) :
    Mirrors loop' ∧ (r = -1 → Unchanged loop loop') := by
  have hlegal {ev : ev_event C D} (hget : getEvent loop fd = .done ev) (hsome : ev.event ≠ EV_NONE) :
      Ctl.legal ⟨if ev.event &&& ~~~event = EV_NONE then .DEL else .MOD, fd, (loop.poller.interest fd).isSome⟩ := by
    have hpresent : (loop.poller.interest fd).isSome := by
      rw [hm.present fd, mask_of_event hget]
      exact hsome
    unfold Ctl.legal
    split_ifs <;> exact hpresent
  cases hd with
  | refused hfd => exact ⟨hm, fun _ => ⟨rfl, rfl, rfl⟩⟩
  | absent hfd hget hnone => exact ⟨hm, fun h => absurd h (by decide)⟩
  | @failed poller q ev hfd hget hsome hdel hq =>
    obtain ⟨hctls, ⟨rfl, -⟩ | ⟨-, hinterest⟩⟩ := epoll_ctl_cases (delevent_ctl hget hdel)
    · exact absurd rfl hq
    · exact ⟨hm.failed rfl (hlegal hget hsome) hinterest hctls, fun _ => ⟨rfl, rfl, hinterest⟩⟩
  | @removed poller ev m hfd hget hsome hdel hkeep hlower =>
    obtain ⟨hctls, ⟨-, hinterest⟩ | ⟨hq, -⟩⟩ := epoll_ctl_cases (delevent_ctl hget hdel)
    · refine ⟨hm.changed (mask_set hget rfl) (hlegal hget hsome) ?_ hctls, fun h => absurd h (by decide)⟩
      refine hinterest.trans ?_
      dsimp only
      by_cases hnone : ev.event &&& ~~~event = EV_NONE
      · rw [if_pos hnone, if_pos rfl, if_pos hnone]
      · rw [if_neg hnone, if_neg hnone, if_neg (by decide)]
    · exact absurd hq (by decide)

/-! ## Whole runs -/

theorem poller_create_some {created : Bool} {poller : epoll} (hpoller : epoll.poller_create created = some poller) :
    poller = { interest := fun _ => none, ctls := [] } := by
  unfold epoll.poller_create at hpoller
  split_ifs at hpoller
  exact (Option.some.inj hpoller).symm

theorem new_mirrors {malloc created : Bool} {timers : Option (Timer.timer_heap C D)} {maxevents : Int}
    (hnew : event_loop_create malloc (epoll.poller_create created) timers maxevents = some loop) :
    Mirrors loop := by
  obtain ⟨-, hpoller, -, -, -⟩ := event_loop_create_some hnew
  refine ⟨?_, ?_, ?_⟩ <;> simp [poller_create_some hpoller, new_mask hnew]

theorem Requested.mirrors {act : Act C D Bool} (hm : Mirrors loop) (hreq : Requested epoll.build loop act loop') :
    Mirrors loop' :=
  hreq.elim (fun _ _ _ _ _ _ hevent hc => (hm.created hevent.ne_none hc).1) fun _ _ _ _ hd => (hm.deleted hd).1

/-- In every run the kernel watches what is registered and was asked for nothing that it could not do, and a
further call that returns -1 changes nothing. -/
theorem interest_mirrors_of_run {malloc created : Bool} {timers : Option (Timer.timer_heap C D)}
    {maxevents : Int} {acts : List (Act C D Bool)}
    (hnew : event_loop_create malloc (epoll.poller_create created) timers maxevents = some loop₀)
    (hrun : Run (Requested epoll.build) loop₀ acts loop) :
    Mirrors loop ∧ ∀ willing fd event cb data loop', Asked event →
      (create_event epoll.build willing loop fd event cb data = .done (loop', -1) → Unchanged loop loop') ∧
      (delete_event epoll.build willing loop fd event = .done (loop', -1) → Unchanged loop loop') := by
  have hm : Mirrors loop := hrun.invariant (fun _ _ _ hm hreq => hreq.mirrors hm) (new_mirrors hnew)
  refine ⟨hm, ?_⟩
  intro willing fd event cb data loop' hevent
  constructor
  · exact fun hcreate => (hm.created hevent.ne_none (create_event_done hcreate)).2 rfl
  · exact fun hdelete => (hm.deleted (delete_event_done hdelete)).2 rfl

theorem interest_mirrors_sample :
    ∃ loop, Run (Requested epoll.build) (newLoop (⟨fun _ => none, []⟩ : epoll))
        [.create true 1 EV_RDABLE 7 0, .create false 1 EV_WRABLE 8 0, .create true 1 EV_WRABLE 8 0,
          .delete true 1 EV_RDABLE] loop ∧
      loop.poller.interest 1 = some { events := EPOLLOUT, fd := 1 } ∧ loop.poller.ctls.length = 4 ∧
      Mirrors loop ∧ ∀ willing fd event cb data loop', Asked event →
        (create_event epoll.build willing loop fd event cb data = .done (loop', -1) → Unchanged loop loop') ∧
        (delete_event epoll.build willing loop fd event = .done (loop', -1) → Unchanged loop loop') := by
  have hnew : event_loop_create true (epoll.poller_create true) (some Timer.newHeap) 4 =
      some (newLoop (⟨fun _ => none, []⟩ : epoll)) := rfl
  have hrun := (((Run.nil.snoc (show Requested epoll.build (newLoop (⟨fun _ => none, []⟩ : epoll))
    (.create true 1 EV_RDABLE 7 0) _ from ⟨by decide, by decide, Or.inl rfl, _, rfl⟩)).snoc
    (show Requested epoll.build _ (.create false 1 EV_WRABLE 8 0) _ from
        ⟨by decide, by decide, Or.inr (Or.inl rfl), _, rfl⟩)).snoc
    (show Requested epoll.build _ (.create true 1 EV_WRABLE 8 0) _ from
        ⟨by decide, by decide, Or.inr (Or.inl rfl), _, rfl⟩)).snoc
    (show Requested epoll.build _ (.delete true 1 EV_RDABLE) _ from ⟨by decide, by decide, Or.inl rfl, _, rfl⟩)
  exact ⟨_, hrun, rfl, rfl, interest_mirrors_of_run hnew hrun⟩

end Akio.Event
