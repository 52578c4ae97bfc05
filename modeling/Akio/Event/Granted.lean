import Akio.Event.Bounds

/-!
# Requests that epoll grants

While the kernel mirrors the registry, it grants every request of a call that it is willing to serve.
-/

namespace Akio.Event

variable {C D : Type} {loop loop' : event_loop C D epoll} {poller poller' : epoll} {fd q : Int} {event : BitVec 32}
  {ev : ev_event C D} {willing : Bool} {op : EPOLL_CTL} {ee : epoll_event}

/-- `fd` has the entry `ev` in `loop'`. Nothing else changed but for the poller and the max fd. -/
structure Entered (loop loop' : event_loop C D epoll) (fd : Int) (ev : ev_event C D) : Prop where
  event : getEvent loop' fd = .done ev
  other : ∀ fd', fd' ≠ fd → getEvent loop' fd' = getEvent loop fd'
  length : loop'.events.length = loop.events.length
  setsize : loop'.setsize = loop.setsize
  timers : loop'.timers = loop.timers
  mirrors : Mirrors loop'

theorem entered_of_set {ev₀ : ev_event C D} (hget : getEvent loop fd = .done ev₀)
    (hset : loop'.events = loop.events.set fd.toNat ev) (hsize : loop'.setsize = loop.setsize)
    (htimers : loop'.timers = loop.timers) (hm : Mirrors loop') : Entered loop loop' fd ev where
  event := (getEvent_set hget hset).trans (if_pos rfl)
  other _ hne := (getEvent_set hget hset).trans (if_neg hne)
  length := by rw [hset, List.length_set]
  setsize := hsize
  timers := htimers
  mirrors := hm

theorem epoll_ctl_grants (hlegal : Ctl.legal ⟨op, fd, (poller.interest fd).isSome⟩)
    (hctl : epoll_ctl true poller op fd ee = (poller', q)) : q = 0 := by
  unfold epoll_ctl at hctl
  rw [if_pos ⟨rfl, hlegal⟩] at hctl
  exact (Prod.mk.inj hctl).2.symm

theorem Mirrors.isSome_iff (hm : Mirrors loop) (hget : getEvent loop fd = .done ev) :
    (loop.poller.interest fd).isSome ↔ ev.event ≠ EV_NONE := by
  rw [hm.present fd, mask_of_event hget]

theorem create_event_grants (hm : Mirrors loop) (hsize : loop.events.length = loop.setsize)
    (hfd : 1 ≤ fd ∧ fd < loop.setsize) (hevent : event ≠ EV_NONE) (hget : getEvent loop fd = .done ev) (cb : C)
    (data : D) :
    ∃ loop', create_event epoll.build true loop fd event cb data = .done (loop', 0) ∧
      Entered loop loop' fd (armed ev event cb data) := by
  have hreturns : ∃ loop' r, create_event epoll.build true loop fd event cb data = .done (loop', r) :=
    create_event_returns trivial hsize true event cb data
  obtain ⟨loop', r, hdone⟩ := hreturns
  have hc := create_event_done hdone
  have hm' := (hm.created hevent hc).1
  cases hc with
  | refused hout => omega
  | failed hin hget' hadd hq =>
    obtain rfl := Outcome.done.inj (hget.symm.trans hget')
    refine absurd (epoll_ctl_grants ?_ (addevent_ctl hget hadd)) hq
    have hsome := hm.isSome_iff hget
    unfold Ctl.legal
    split_ifs with hnone <;> simp_all
  | added hin hget' hadd =>
    obtain rfl := Outcome.done.inj (hget.symm.trans hget')
    exact ⟨_, hdone, entered_of_set hget rfl rfl rfl hm'⟩

theorem create_event_refused (hm : Mirrors loop) (hsize : loop.events.length = loop.setsize) (hevent : event ≠ EV_NONE)
    (hout : willing = false ∨ fd < 1 ∨ fd ≥ loop.setsize) (cb : C) (data : D) :
    ∃ loop', create_event epoll.build willing loop fd event cb data = .done (loop', -1) ∧
      loop'.events = loop.events ∧ loop'.setsize = loop.setsize ∧ loop'.timers = loop.timers ∧ Mirrors loop' := by
  have hreturns : ∃ loop' r, create_event epoll.build willing loop fd event cb data = .done (loop', r) :=
    create_event_returns trivial hsize willing event cb data
  obtain ⟨loop', r, hdone⟩ := hreturns
  have hc := create_event_done hdone
  have hm' := (hm.created hevent hc).1
  cases hc with
  | refused hout => exact ⟨_, hdone, rfl, rfl, rfl, hm'⟩
  | failed hin hget hadd hq => exact ⟨_, hdone, rfl, rfl, rfl, hm'⟩
  | added hin hget hadd =>
    obtain rfl | hout := hout
    · have hctl := addevent_ctl hget hadd
      simp [epoll_ctl] at hctl
    · omega

theorem delete_event_grants (hm : Mirrors loop) (hsize : loop.events.length = loop.setsize)
    (hget : getEvent loop fd = .done ev) (hsome : ev.event ≠ EV_NONE) (event : BitVec 32) :
    ∃ loop', delete_event epoll.build true loop fd event = .done (loop', 0) ∧
      Entered loop loop' fd { ev with event := ev.event &&& ~~~event } := by
  obtain ⟨h0, hlt⟩ := lt_of_get_event hget
  have hreturns : ∃ loop' r, delete_event epoll.build true loop fd event = .done (loop', r) :=
    delete_event_returns trivial hsize h0 true event
  obtain ⟨loop', r, hdone⟩ := hreturns
  have hd := delete_event_done hdone
  have hm' := (hm.deleted hd).1
  cases hd with
  | refused hout => omega
  | absent hin hget' hnone =>
    obtain rfl := Outcome.done.inj (hget.symm.trans hget')
    exact absurd hnone hsome
  | failed hin hget' hsome' hdel hq =>
    obtain rfl := Outcome.done.inj (hget.symm.trans hget')
    refine absurd (epoll_ctl_grants ?_ (delevent_ctl hget hdel)) hq
    have hpresent := (hm.isSome_iff hget).mpr hsome
    unfold Ctl.legal
    split_ifs <;> exact hpresent
  | removed hin hget' hsome' hdel hkeep hlower =>
    obtain rfl := Outcome.done.inj (hget.symm.trans hget')
    exact ⟨_, hdone, entered_of_set hget rfl rfl rfl hm'⟩

/-! ## A poll -/

theorem epoll_poll_ends {wait : epoll_wait} (hm : Mirrors loop) (hsize : loop.events.length = loop.setsize)
    (hcan : Possible wait) (timeout : Int) :
    (epoll.build.poller_poll wait loop timeout).Ends fun q => q.1 = loop.poller ∧
      ∀ active ∈ q.2, 0 ≤ active.fd ∧ active.fd < loop.setsize := by
  show (epoll.poller_poll wait loop timeout).Ends _
  unfold epoll.poller_poll
  cases hanswer : wait loop.poller.interest loop.setsize timeout with
  | none => trivial
  | some answer =>
    obtain ⟨hroom, hdata⟩ := hcan _ _ _ _ hanswer
    dsimp only
    rw [fillActives_eq (by rw [List.length_nil]; omega), Outcome.done_bind]
    refine ⟨rfl, ?_⟩
    intro active hactive
    obtain ⟨e, he, rfl⟩ := List.mem_map.mp hactive
    obtain ⟨fd, ee, hee, hfd⟩ := hdata e he
    have hrange := range_of_mask ((hm.present fd).mp (Option.isSome_iff_exists.mpr ⟨ee, hee⟩))
    rw [← (hm.watched fd ee hee).data, ← hfd] at hrange
    exact ⟨hrange.1, hsize ▸ hrange.2⟩

end Akio.Event
