import Akio.Event.Model
import Mathlib.Logic.Function.Basic
import Mathlib.Tactic.SplitIfs

/-!
# What the calls on the registry do

One lemma for each call says all it can do. What is registered for a descriptor is its mask.
-/

namespace Akio.Event

variable {C D P K R : Type} {b : Poller C D P K R} {k : K} {loop loop' : event_loop C D P} {fd fd' r m : Int}
  {event : BitVec 32} {ev ev' : ev_event C D} {cb : C} {data : D} {j : Nat}

/-- What is registered for `fd`, and nothing where it has no entry. -/
def mask (loop : event_loop C D P) (fd : Int) : BitVec 32 :=
  match getEvent loop fd with
  | .done ev => ev.event
  | _ => EV_NONE

theorem mask_of_event (h : getEvent loop fd = .done ev) : mask loop fd = ev.event := by
  unfold mask
  rw [h]

/-! ## Entries -/

theorem getEvent_of_lt (loop : event_loop C D P) (h0 : 0 ≤ fd) (h : fd < loop.events.length) :
    ∃ ev, getEvent loop fd = .done ev := by
  have hlt : fd.toNat < loop.events.length := by omega
  unfold getEvent
  rw [if_pos h0, List.getElem?_eq_getElem hlt]
  exact ⟨_, rfl⟩

theorem lt_of_get_event (h : getEvent loop fd = .done ev) : 0 ≤ fd ∧ fd < loop.events.length := by
  unfold getEvent at h
  split_ifs at h with h0
  have hlt := (List.getElem?_eq_some_iff.mp (Outcome.ofOption_eq_done.mp h)).1
  omega

theorem setEvent_of_get (h : getEvent loop fd = .done ev) :
    setEvent loop fd ev' = .done { loop with events := loop.events.set fd.toNat ev' } := by
  obtain ⟨h0, hlt⟩ := lt_of_get_event h
  unfold setEvent
  rw [if_pos ⟨h0, by omega⟩]

theorem getEvent_congr (h : loop'.events = loop.events) : getEvent loop' fd = getEvent loop fd := by
  unfold getEvent
  rw [h]

theorem getEvent_set (h : getEvent loop fd = .done ev)
    (hset : loop'.events = loop.events.set fd.toNat ev') :
    getEvent loop' fd' = if fd' = fd then .done ev' else getEvent loop fd' := by
  obtain ⟨h0, hlt⟩ := lt_of_get_event h
  unfold getEvent
  rw [hset]
  split_ifs with h0' heq heq
  · subst heq
    rw [List.getElem?_set_self (by omega)]
    rfl
  · rw [List.getElem?_set_ne (by omega)]
  · omega
  · rfl

theorem mask_congr (h : loop'.events = loop.events) : mask loop' = mask loop := by
  funext fd
  unfold mask
  rw [getEvent_congr h]

theorem mask_set (h : getEvent loop fd = .done ev) (hset : loop'.events = loop.events.set fd.toNat ev') :
    mask loop' = Function.update (mask loop) fd ev'.event := by
  funext fd'
  unfold mask
  rw [getEvent_set h hset, Function.update_apply]
  split_ifs <;> rfl

/-! ## A new loop -/

theorem event_loop_create_some {malloc : Bool} {poller : Option P} {timers : Option (Timer.timer_heap C D)}
    {maxevents : Int} (hnew : event_loop_create malloc poller timers maxevents = some loop) :
    0 ≤ maxevents ∧ poller = some loop.poller ∧ loop.setsize = maxevents ∧ loop.maxfd = -1 ∧
      loop.events = List.replicate maxevents.toNat { event := EV_NONE, data := none, read := none, write := none } := by
  unfold event_loop_create at hnew
  by_cases hfail : !malloc ∨ maxevents < 0
  · rw [if_pos hfail] at hnew
    cases hnew
  · rw [if_neg hfail] at hnew
    obtain ⟨t, -, hnew⟩ := Option.bind_eq_some_iff.mp hnew
    obtain ⟨p, rfl, hnew⟩ := Option.bind_eq_some_iff.mp hnew
    obtain rfl := Option.some.inj hnew
    exact ⟨by omega, rfl, rfl, rfl, rfl⟩

theorem new_event {n : Nat}
    (hevents : loop.events = List.replicate n { event := EV_NONE, data := none, read := none, write := none })
    (hget : getEvent loop fd = .done ev) : ev.event = EV_NONE := by
  unfold getEvent at hget
  split_ifs at hget
  have hmem := List.mem_of_getElem? (Outcome.ofOption_eq_done.mp hget)
  rw [hevents] at hmem
  rw [List.eq_of_mem_replicate hmem]

theorem new_mask {malloc : Bool} {poller : Option P} {timers : Option (Timer.timer_heap C D)} {maxevents : Int}
    (hnew : event_loop_create malloc poller timers maxevents = some loop) (fd : Int) : mask loop fd = EV_NONE := by
  obtain ⟨-, -, -, -, hevents⟩ := event_loop_create_some hnew
  unfold mask
  split
  · next ev hget => exact new_event hevents hget
  · rfl

/-! ## `create_event` -/

/-- The entry that `create_event` writes. -/
abbrev armed (ev : ev_event C D) (event : BitVec 32) (cb : C) (data : D) : ev_event C D where
  event := ev.event ||| event
  read := if event &&& EV_RDABLE ≠ 0 then some cb else ev.read
  write := if event &&& EV_WRABLE ≠ 0 then some cb else ev.write
  data := some data

/-- It is refused, or the poller fails, or the entry is written. -/
inductive Created (b : Poller C D P K R) (k : K) (loop : event_loop C D P) (fd : Int) (event : BitVec 32)
    (cb : C) (data : D) : event_loop C D P → Int → Prop where
  | refused (hfd : fd < 1 ∨ fd ≥ loop.setsize) : Created b k loop fd event cb data loop (-1)
  | failed {poller : P} {q : Int} {ev : ev_event C D} (hfd : ¬ (fd < 1 ∨ fd ≥ loop.setsize))
      (hget : getEvent loop fd = .done ev) (hadd : b.poller_addevent k loop fd event = .done (poller, q))
      (hq : q ≠ 0) : Created b k loop fd event cb data { loop with poller } (-1)
  | added {poller : P} {ev : ev_event C D} (hfd : ¬ (fd < 1 ∨ fd ≥ loop.setsize))
      (hget : getEvent loop fd = .done ev) (hadd : b.poller_addevent k loop fd event = .done (poller, 0)) :
      Created b k loop fd event cb data
        { loop with
          poller, events := loop.events.set fd.toNat (armed ev event cb data)
          maxfd := if fd > loop.maxfd then fd else loop.maxfd } 0

theorem Created.frame (hc : Created b k loop fd event cb data loop' r) :
    loop'.setsize = loop.setsize ∧ loop'.events.length = loop.events.length ∧ loop'.timers = loop.timers := by
  cases hc with
  | refused => exact ⟨rfl, rfl, rfl⟩
  | failed => exact ⟨rfl, rfl, rfl⟩
  | added => exact ⟨rfl, List.length_set .., rfl⟩

theorem create_event_done (hdone : create_event b k loop fd event cb data = .done (loop', r)) :
    Created b k loop fd event cb data loop' r := by
  unfold create_event at hdone
  by_cases hfd : fd < 1 ∨ fd ≥ loop.setsize
  · rw [if_pos hfd] at hdone
    obtain ⟨rfl, rfl⟩ := Prod.mk.inj (Outcome.done.inj hdone)
    exact .refused hfd
  · rw [if_neg hfd] at hdone
    obtain ⟨ev, hget, hdone⟩ := Outcome.bind_eq_done.mp hdone
    obtain ⟨⟨poller, q⟩, hadd, hdone⟩ := Outcome.bind_eq_done.mp hdone
    dsimp only at hdone
    by_cases hq : q ≠ 0
    · rw [if_pos hq] at hdone
      obtain ⟨rfl, rfl⟩ := Prod.mk.inj (Outcome.done.inj hdone)
      exact .failed hfd hget hadd hq
    · rw [if_neg hq] at hdone
      obtain ⟨loop₁, hset, hdone⟩ := Outcome.bind_eq_done.mp hdone
      have hget' : getEvent { loop with poller } fd = .done ev := hget
      rw [setEvent_of_get hget'] at hset
      obtain rfl := Outcome.done.inj hset
      obtain ⟨rfl, rfl⟩ := Prod.mk.inj (Outcome.done.inj hdone)
      obtain rfl := not_not.mp hq
      exact .added hfd hget hadd

theorem create_event_returns (hserves : b.serves loop.setsize) (hsize : loop.events.length = loop.setsize)
    (k : K) (event : BitVec 32) (cb : C) (data : D) :
    ∃ loop' r, create_event b k loop fd event cb data = .done (loop', r) := by
  unfold create_event
  by_cases hfd : fd < 1 ∨ fd ≥ loop.setsize
  · rw [if_pos hfd]
    exact ⟨loop, -1, rfl⟩
  · obtain ⟨ev, hget⟩ := getEvent_of_lt loop (show 0 ≤ fd by omega) (by omega)
    obtain ⟨⟨poller, q⟩, hadd⟩ := b.add_returns hserves (by omega) hget k event
    have hget' : getEvent { loop with poller } fd = .done ev := hget
    rw [if_neg hfd, hget, Outcome.done_bind, hadd, Outcome.done_bind]
    dsimp only
    by_cases hq : q ≠ 0
    · rw [if_pos hq]
      exact ⟨_, _, rfl⟩
    · rw [if_neg hq, setEvent_of_get hget']
      exact ⟨_, _, rfl⟩

/-! ## `delete_event` -/

theorem lowerMaxfd_spec (loop : event_loop C D P) (hj : j ≤ loop.events.length) (hm : j ≤ m) :
    ∃ m', lowerMaxfd loop m j = .done m' ∧ (m' = m ∨ 0 ≤ m' ∧ m' < j) ∧
      ∀ i : Nat, i < j → m' ≤ i → mask loop i = EV_NONE := by
  induction j generalizing m with
  | zero => exact ⟨m, rfl, Or.inl rfl, fun i hi => absurd hi (Nat.not_lt_zero i)⟩
  | succ j ih =>
    obtain ⟨ev, hget⟩ := getEvent_of_lt loop (show 0 ≤ (j : Int) by omega) (by omega)
    unfold lowerMaxfd
    rw [hget, Outcome.done_bind]
    by_cases hsome : ev.event ≠ EV_NONE
    · rw [if_pos hsome]
      refine ⟨m, rfl, Or.inl rfl, ?_⟩
      intro i hi hle
      omega
    · rw [if_neg hsome]
      obtain ⟨m', hlower, hm', hnone⟩ := ih (m := j) (by omega) (Int.le_refl _)
      refine ⟨m', hlower, ?_, ?_⟩
      · omega
      · intro i hi hle
        rcases Nat.lt_succ_iff_lt_or_eq.mp hi with hlt | rfl
        · exact hnone i hlt hle
        · rw [mask_of_event hget]
          exact not_not.mp hsome

/-- It is refused, or finds nothing to do, or the poller fails, or the entry is changed and the max fd goes
down to `m`. -/
inductive Deleted (b : Poller C D P K R) (k : K) (loop : event_loop C D P) (fd : Int) (event : BitVec 32) :
    event_loop C D P → Int → Prop where
  | refused (hfd : fd ≥ loop.setsize) : Deleted b k loop fd event loop (-1)
  | absent {ev : ev_event C D} (hfd : fd < loop.setsize) (hget : getEvent loop fd = .done ev)
      (hnone : ev.event = EV_NONE) : Deleted b k loop fd event loop 0
  | failed {poller : P} {q : Int} {ev : ev_event C D} (hfd : fd < loop.setsize)
      (hget : getEvent loop fd = .done ev) (hsome : ev.event ≠ EV_NONE)
      (hdel : b.poller_delevent k loop fd event = .done (poller, q)) (hq : q ≠ 0) :
      Deleted b k loop fd event { loop with poller } (-1)
  | removed {poller : P} {ev : ev_event C D} {m : Int} (hfd : fd < loop.setsize)
      (hget : getEvent loop fd = .done ev) (hsome : ev.event ≠ EV_NONE)
      (hdel : b.poller_delevent k loop fd event = .done (poller, 0))
      (hkeep : ¬ (fd = loop.maxfd ∧ ev.event &&& ~~~event = EV_NONE) → m = loop.maxfd)
      (hlower : fd = loop.maxfd ∧ ev.event &&& ~~~event = EV_NONE →
        lowerMaxfd { loop with
            poller, events := loop.events.set fd.toNat { ev with event := ev.event &&& ~~~event } }
          loop.maxfd loop.maxfd.toNat = .done m) :
      Deleted b k loop fd event
        { loop with
          poller, events := loop.events.set fd.toNat { ev with event := ev.event &&& ~~~event }, maxfd := m } 0

theorem Deleted.frame (hd : Deleted b k loop fd event loop' r) :
    loop'.setsize = loop.setsize ∧ loop'.events.length = loop.events.length ∧ loop'.timers = loop.timers := by
  cases hd with
  | refused => exact ⟨rfl, rfl, rfl⟩
  | absent => exact ⟨rfl, rfl, rfl⟩
  | failed => exact ⟨rfl, rfl, rfl⟩
  | removed => exact ⟨rfl, List.length_set .., rfl⟩

theorem delete_event_done (hdone : delete_event b k loop fd event = .done (loop', r)) :
    Deleted b k loop fd event loop' r := by
  unfold delete_event at hdone
  by_cases hfd : fd ≥ loop.setsize
  · rw [if_pos hfd] at hdone
    obtain ⟨rfl, rfl⟩ := Prod.mk.inj (Outcome.done.inj hdone)
    exact .refused hfd
  · rw [if_neg hfd] at hdone
    rw [ge_iff_le, Int.not_le] at hfd
    obtain ⟨ev, hget, hdone⟩ := Outcome.bind_eq_done.mp hdone
    by_cases hnone : ev.event = EV_NONE
    · rw [if_pos hnone] at hdone
      obtain ⟨rfl, rfl⟩ := Prod.mk.inj (Outcome.done.inj hdone)
      exact .absent hfd hget hnone
    · rw [if_neg hnone] at hdone
      obtain ⟨⟨poller, q⟩, hdel, hdone⟩ := Outcome.bind_eq_done.mp hdone
      dsimp only at hdone
      by_cases hq : q ≠ 0
      · rw [if_pos hq] at hdone
        obtain ⟨rfl, rfl⟩ := Prod.mk.inj (Outcome.done.inj hdone)
        exact .failed hfd hget hnone hdel hq
      · rw [if_neg hq] at hdone
        obtain rfl := not_not.mp hq
        obtain ⟨loop₁, hset, hdone⟩ := Outcome.bind_eq_done.mp hdone
        have hget' : getEvent { loop with poller } fd = .done ev := hget
        rw [setEvent_of_get hget'] at hset
        obtain rfl := Outcome.done.inj hset
        dsimp only at hdone
        by_cases hlast : fd = loop.maxfd ∧ ev.event &&& ~~~event = EV_NONE
        · rw [if_pos hlast] at hdone
          obtain ⟨m, hlower, hdone⟩ := Outcome.bind_eq_done.mp hdone
          obtain ⟨rfl, rfl⟩ := Prod.mk.inj (Outcome.done.inj hdone)
          exact .removed hfd hget hnone hdel (fun h => absurd hlast h) fun _ => hlower
        · rw [if_neg hlast] at hdone
          obtain ⟨rfl, rfl⟩ := Prod.mk.inj (Outcome.done.inj hdone)
          exact .removed hfd hget hnone hdel (fun _ => rfl) fun h => absurd h hlast

theorem delete_event_returns (hserves : b.serves loop.setsize) (hsize : loop.events.length = loop.setsize)
    (hfd : 0 ≤ fd) (k : K) (event : BitVec 32) : ∃ loop' r, delete_event b k loop fd event = .done (loop', r) := by
  unfold delete_event
  by_cases hge : fd ≥ loop.setsize
  · rw [if_pos hge]
    exact ⟨loop, -1, rfl⟩
  · obtain ⟨ev, hget⟩ := getEvent_of_lt loop hfd (by omega)
    rw [if_neg hge, hget, Outcome.done_bind]
    by_cases hnone : ev.event = EV_NONE
    · rw [if_pos hnone]
      exact ⟨loop, 0, rfl⟩
    · obtain ⟨⟨poller, q⟩, hdel⟩ := b.del_returns hserves (by omega) hget k event
      have hget' : getEvent { loop with poller } fd = .done ev := hget
      rw [if_neg hnone, hdel, Outcome.done_bind]
      dsimp only
      by_cases hq : q ≠ 0
      · rw [if_pos hq]
        exact ⟨_, _, rfl⟩
      · rw [if_neg hq, setEvent_of_get hget', Outcome.done_bind]
        dsimp only
        by_cases hlast : fd = loop.maxfd ∧ ev.event &&& ~~~event = EV_NONE
        · obtain ⟨m, hlower, -⟩ := lowerMaxfd_spec
            { loop with poller, events := loop.events.set fd.toNat { ev with event := ev.event &&& ~~~event } }
            (m := loop.maxfd) (j := loop.maxfd.toNat) (by rw [List.length_set]; omega) (by omega)
          rw [if_pos hlast, hlower]
          exact ⟨_, _, rfl⟩
        · rw [if_neg hlast]
          exact ⟨_, _, rfl⟩

/-! ## Calls that ask for something -/

/-- A nonempty subset of the two directions. -/
def Asked (event : BitVec 32) : Prop :=
  event = EV_RDABLE ∨ event = EV_WRABLE ∨ event = EV_RDABLE ||| EV_WRABLE

theorem Asked.ne_none (h : Asked event) : event ≠ EV_NONE := by
  rcases h with rfl | rfl | rfl <;> decide

/-- The call returned, for a descriptor in `[0, setsize)` and directions there are. -/
def Requested (b : Poller C D P K R) (loop : event_loop C D P) (act : Act C D K) (loop' : event_loop C D P) : Prop :=
  match act with
  | .create k fd event cb data => 0 ≤ fd ∧ fd < loop.setsize ∧ Asked event ∧
    ∃ r, create_event b k loop fd event cb data = .done (loop', r)
  | .delete k fd event => 0 ≤ fd ∧ fd < loop.setsize ∧ Asked event ∧
    ∃ r, delete_event b k loop fd event = .done (loop', r)

theorem Requested.elim {act : Act C D K} {I : Prop} (hreq : Requested b loop act loop')
    (hcreated : ∀ k fd event cb data r, Asked event → Created b k loop fd event cb data loop' r → I)
    (hdeleted : ∀ k fd event r, Deleted b k loop fd event loop' r → I) : I := by
  cases act with
  | create k fd event cb data =>
    obtain ⟨-, -, hevent, r, hcreate⟩ := hreq
    exact hcreated k fd event cb data r hevent (create_event_done hcreate)
  | delete k fd event =>
    obtain ⟨-, -, -, r, hdelete⟩ := hreq
    exact hdeleted k fd event r (delete_event_done hdelete)

/-- No descriptor past the max fd is registered, and it is one of the `n` that there are. -/
structure Bounded (n : Int) (loop : event_loop C D P) : Prop where
  length : loop.events.length = n
  maxfd : -1 ≤ loop.maxfd ∧ loop.maxfd < n
  bound : ∀ fd, mask loop fd ≠ EV_NONE → fd ≤ loop.maxfd

theorem range_of_mask (h : mask loop fd ≠ EV_NONE) : 0 ≤ fd ∧ fd < loop.events.length := by
  unfold mask at h
  split at h
  · next hget => exact lt_of_get_event hget
  · exact absurd rfl h

theorem new_bounded {malloc : Bool} {poller : Option P} {timers : Option (Timer.timer_heap C D)} {n : Int}
    (hnew : event_loop_create malloc poller timers n = some loop) : Bounded n loop := by
  obtain ⟨hle, -, -, hmaxfd, hevents⟩ := event_loop_create_some hnew
  refine ⟨?_, by omega, ?_⟩
  · rw [hevents, List.length_replicate]
    omega
  · intro fd hsome
    exact absurd (new_mask hnew fd) hsome

theorem Bounded.created {n : Int} (hb : Bounded n loop) (hc : Created b k loop fd event cb data loop' r) :
    Bounded n loop' := by
  obtain ⟨hlength, hmaxfd, hbound⟩ := hb
  cases hc with
  | refused hfd => exact ⟨hlength, hmaxfd, hbound⟩
  | failed hfd hget hadd hq => exact ⟨hlength, hmaxfd, hbound⟩
  | @added poller ev hfd hget hadd =>
    have hrange := lt_of_get_event hget
    refine ⟨by simp only [List.length_set]; exact hlength, ?_, ?_⟩
    · dsimp only
      split_ifs <;> omega
    · intro fd' hsome
      rw [mask_set hget rfl, Function.update_apply] at hsome
      dsimp only
      split_ifs at hsome with hfd'
      · split_ifs <;> omega
      · have := hbound fd' hsome
        split_ifs <;> omega

theorem Bounded.deleted {n : Int} (hb : Bounded n loop) (hd : Deleted b k loop fd event loop' r) :
    Bounded n loop' := by
  obtain ⟨hlength, hmaxfd, hbound⟩ := hb
  cases hd with
  | refused hfd => exact ⟨hlength, hmaxfd, hbound⟩
  | absent hfd hget hnone => exact ⟨hlength, hmaxfd, hbound⟩
  | failed hfd hget hsome hdel hq => exact ⟨hlength, hmaxfd, hbound⟩
  | @removed poller ev m hfd hget hsome hdel hkeep hlower =>
    have hold : ∀ fd', mask { loop with
        poller, events := loop.events.set fd.toNat { ev with event := ev.event &&& ~~~event }, maxfd := m } fd' ≠
          EV_NONE → fd' ≤ loop.maxfd := by
      intro fd' hsome'
      rw [mask_set hget rfl, Function.update_apply] at hsome'
      split_ifs at hsome' with hfd'
      · rw [hfd']
        exact hbound fd (by rwa [mask_of_event hget])
      · exact hbound fd' hsome'
    by_cases hlast : fd = loop.maxfd ∧ ev.event &&& ~~~event = EV_NONE
    · -- The max fd goes down past descriptors that are not registered.
      obtain ⟨m', hrun, hm', hnone⟩ := lowerMaxfd_spec
        { loop with poller, events := loop.events.set fd.toNat { ev with event := ev.event &&& ~~~event } }
        (m := loop.maxfd) (j := loop.maxfd.toNat) (by rw [List.length_set]; omega)
        (by have := (lt_of_get_event hget).1; omega)
      obtain rfl := Outcome.done.inj ((hlower hlast).symm.trans hrun)
      refine ⟨by simp only [List.length_set]; exact hlength, ?_, ?_⟩
      · show -1 ≤ m ∧ m < n
        omega
      · intro fd' hsome'
        have hrange := range_of_mask hsome'
        have hle := hold fd' hsome'
        have hne : fd' ≠ loop.maxfd := by
          rintro rfl
          rw [mask_set hget rfl, hlast.1, Function.update_self] at hsome'
          exact hsome' hlast.2
        by_contra hgt
        apply hsome'
        have := hnone fd'.toNat (by omega) (by have : ¬ fd' ≤ m := hgt; omega)
        rwa [show (fd'.toNat : Int) = fd' by omega] at this
    · obtain rfl := hkeep hlast
      exact ⟨by simp only [List.length_set]; exact hlength, hmaxfd, hold⟩

theorem Requested.bounded {act : Act C D K} {n : Int} (hb : Bounded n loop) (hreq : Requested b loop act loop') :
    Bounded n loop' :=
  hreq.elim (fun _ _ _ _ _ _ _ => hb.created) fun _ _ _ _ => hb.deleted

end Akio.Event
