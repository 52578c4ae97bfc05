import Akio.Event.History

/-!
# Whether `maxfd` is the largest descriptor registered

`create_event` raises it. When the descriptor that is `maxfd` loses its last direction, the loop of
`delete_event` stops at the next descriptor registered, and leaves `maxfd` one above it, or at 0 where none is
registered.
-/

namespace Akio.Event

variable {C D P K R : Type} {b : Poller C D P K R} {k : K} {loop loop' : event_loop C D P} {fd r n : Int}
  {event : BitVec 32} {cb : C} {data : D}

/-- `maxfd` is the largest descriptor registered, and -1 where none is. -/
def MaxExact (loop : event_loop C D P) : Prop :=
  (mask loop loop.maxfd ≠ EV_NONE ∧ ∀ fd, mask loop fd ≠ EV_NONE → fd ≤ loop.maxfd) ∨
    (loop.maxfd = -1 ∧ ∀ fd, mask loop fd = EV_NONE)

/-- The call takes the last direction off the descriptor that is `maxfd`, and the poller lets it. -/
def DropsMax (b : Poller C D P K R) (loop : event_loop C D P) : Act C D K → Prop
  | .create .. => False
  | .delete k fd event => fd = loop.maxfd ∧ mask loop fd ≠ EV_NONE ∧ mask loop fd &&& ~~~event = EV_NONE ∧
    ∃ poller, b.poller_delevent k loop fd event = .done (poller, 0)

theorem Bounded.exact_iff (hb : Bounded n loop) :
    MaxExact loop ↔ loop.maxfd = -1 ∨ mask loop loop.maxfd ≠ EV_NONE := by
  constructor
  · rintro (⟨hsome, -⟩ | ⟨hnone, -⟩)
    · exact Or.inr hsome
    · exact Or.inl hnone
  · rintro (hnone | hsome)
    · refine Or.inr ⟨hnone, fun fd => ?_⟩
      by_contra hfd
      have hrange := range_of_mask hfd
      have hle := hb.bound fd hfd
      omega
    · exact Or.inl ⟨hsome, hb.bound⟩

theorem maxExact_congr (hevents : loop'.events = loop.events) (hmaxfd : loop'.maxfd = loop.maxfd) :
    MaxExact loop' ↔ MaxExact loop := by
  unfold MaxExact
  rw [mask_congr hevents, hmaxfd]

/-! ## One call -/

theorem MaxExact.created (hb : Bounded n loop) (hexact : MaxExact loop) (hevent : Asked event)
    (hc : Created b k loop fd event cb data loop' r) : MaxExact loop' := by
  have hb' := hb.created hc
  rw [hb.exact_iff] at hexact
  cases hc with
  | refused hfd => exact hb.exact_iff.mpr hexact
  | failed hfd hget hadd hq => exact (maxExact_congr rfl rfl).mpr (hb.exact_iff.mpr hexact)
  | @added poller ev hfd hget hadd =>
    rw [hb'.exact_iff]
    refine Or.inr ?_
    have harmed : (armed ev event cb data).event ≠ EV_NONE := by
      intro hnone
      apply hevent.ne_none
      exact (BitVec.or_eq_zero_iff.mp hnone).2
    rw [mask_set hget rfl, Function.update_apply]
    dsimp only
    split_ifs with hgt heq heq
    · exact harmed
    · exact absurd rfl heq
    · exact harmed
    · exact hexact.resolve_left (by omega)

theorem not_exact_of_dropped (hb : Bounded n loop) (hlt : fd < loop.setsize)
    (hdrops : DropsMax b loop (.delete k fd event : Act C D K)) (hd : Deleted b k loop fd event loop' r) :
    ¬ MaxExact loop' := by
  obtain ⟨heq, hsome, hlast, poller, hdel⟩ := hdrops
  have hb' := hb.deleted hd
  cases hd with
  | refused hfd => omega
  | absent hfd hget hnone => exact absurd ((mask_of_event hget).trans hnone) hsome
  | failed hfd hget hsome' hdel' hq =>
    have h := hdel.symm.trans hdel'
    simp only [Outcome.done.injEq, Prod.mk.injEq] at h
    exact absurd h.2.symm hq
  | @removed poller ev m hfd hget hsome' hdel' hkeep hlower =>
    rw [mask_of_event hget] at hlast
    have hrange := lt_of_get_event hget
    obtain ⟨m', hrun, hm', hnone⟩ := lowerMaxfd_spec
      { loop with poller, events := loop.events.set fd.toNat { ev with event := ev.event &&& ~~~event } }
      (m := loop.maxfd) (j := loop.maxfd.toNat) (by rw [List.length_set]; omega) (by omega)
    obtain rfl := Outcome.done.inj ((hlower ⟨heq, hlast⟩).symm.trans hrun)
    rw [hb'.exact_iff]
    dsimp only
    rintro (hneg | hmask)
    · omega
    · apply hmask
      rcases hm' with rfl | ⟨h0, hlt⟩
      · rw [mask_set hget rfl, ← heq, Function.update_self]
        exact hlast
      · have hm := hnone m.toNat (by omega) (by omega)
        rwa [show (m.toNat : Int) = m by omega] at hm

theorem MaxExact.deleted (hb : Bounded n loop) (hexact : MaxExact loop)
    (hkeeps : ¬ DropsMax b loop (.delete k fd event : Act C D K)) (hd : Deleted b k loop fd event loop' r) :
    MaxExact loop' := by
  have hb' := hb.deleted hd
  cases hd with
  | refused hfd => exact hexact
  | absent hfd hget hnone => exact hexact
  | failed hfd hget hsome hdel hq => exact (maxExact_congr rfl rfl).mpr hexact
  | @removed poller ev m hfd hget hsome hdel hkeep hlower =>
    have hmask := mask_of_event hget
    have hnot : ¬ (fd = loop.maxfd ∧ ev.event &&& ~~~event = EV_NONE) := by
      rintro ⟨heq, hlast⟩
      exact hkeeps ⟨heq, by rwa [hmask], by rwa [hmask], poller, hdel⟩
    obtain rfl := hkeep hnot
    rw [hb.exact_iff] at hexact
    rw [hb'.exact_iff, mask_set hget rfl, Function.update_apply]
    refine hexact.imp id fun hsome' => ?_
    dsimp only
    split_ifs with heq
    · exact fun hlast => hnot ⟨heq.symm, hlast⟩
    · exact hsome'

theorem exact_step_iff {act : Act C D K} (hb : Bounded n loop) (hexact : MaxExact loop)
    (hreq : Requested b loop act loop') : MaxExact loop' ↔ ¬ DropsMax b loop act := by
  cases act with
  | create k fd event cb data =>
    obtain ⟨-, -, hevent, r, hcreate⟩ := hreq
    exact iff_of_true (hexact.created hb hevent (create_event_done hcreate)) id
  | delete k fd event =>
    obtain ⟨-, hlt, -, r, hdelete⟩ := hreq
    have hd := delete_event_done hdelete
    exact ⟨fun h hdrops => not_exact_of_dropped hb hlt hdrops hd h, fun hkeeps => hexact.deleted hb hkeeps hd⟩

/-! ## Runs -/

/-- In every run whose calls do not take the last direction off the descriptor that is `maxfd`, `maxfd` is exact
after each call. The first call that does so makes it wrong. -/
theorem maxfd_exact_of_run {malloc : Bool} {poller : Option P} {timers : Option (Timer.timer_heap C D)}
    {loop₀ : event_loop C D P} (hnew : event_loop_create malloc poller timers n = some loop₀)
    {acts : List (Act C D K)}
    (hrun : Run (fun loop act loop' => ¬ DropsMax b loop act ∧ Requested b loop act loop') loop₀ acts loop) :
    MaxExact loop ∧ ∀ act loop', Requested b loop act loop' → (MaxExact loop' ↔ ¬ DropsMax b loop act) := by
  have hinv : Bounded n loop ∧ MaxExact loop := by
    refine hrun.invariant (P := fun loop => Bounded n loop ∧ MaxExact loop) ?_ ?_
    · rintro loop act loop' ⟨hb, hexact⟩ ⟨hkeeps, hreq⟩
      exact ⟨hreq.bounded hb, (exact_step_iff hb hexact hreq).mpr hkeeps⟩
    · obtain ⟨-, -, -, hmaxfd, -⟩ := event_loop_create_some hnew
      exact ⟨new_bounded hnew, Or.inr ⟨hmaxfd, new_mask hnew⟩⟩
  exact ⟨hinv.2, fun act loop' hreq => exact_step_iff hinv.1 hinv.2 hreq⟩

/-- A loop of four entries with select. -/
def newSelect : event_loop Nat Nat select := newLoop ⟨fun _ => false, fun _ => false⟩

theorem newSelect_create :
    event_loop_create true (select.poller_create true) (some Timer.newHeap) 4 = some newSelect := rfl

/-- The loop when the read event of descriptor 2 is registered. -/
def oneRegistered : event_loop Nat Nat select :=
  { newSelect with
    maxfd := 2
    events := newSelect.events.set 2 { event := EV_RDABLE, data := some 0, read := some 7, write := none }
    poller := ⟨Function.update (fun _ => false) 2 true, fun _ => false⟩ }

theorem oneRegistered_requested :
    Requested select.build newSelect (.create () 2 EV_RDABLE 7 0) oneRegistered :=
  ⟨by decide, by decide, Or.inl rfl, 0, rfl⟩

/-- The loop when both events of descriptor 3 are registered too. -/
def bothRegistered : event_loop Nat Nat select :=
  { oneRegistered with
    maxfd := 3
    events := oneRegistered.events.set 3
      { event := EV_RDABLE ||| EV_WRABLE, data := some 1, read := some 8, write := some 8 }
    poller := ⟨Function.update oneRegistered.poller.rfds 3 true, Function.update oneRegistered.poller.wfds 3 true⟩ }

/-- The loop when only the read event of it is left. -/
def readLeft : event_loop Nat Nat select :=
  { bothRegistered with
    events := bothRegistered.events.set 3 { event := EV_RDABLE, data := some 1, read := some 8, write := some 8 }
    poller := ⟨bothRegistered.poller.rfds, Function.update bothRegistered.poller.wfds 3 false⟩ }

theorem maxfd_exact_of_run_sample : MaxExact readLeft := by
  have hcreate : Requested select.build oneRegistered (.create () 3 (EV_RDABLE ||| EV_WRABLE) 8 1) bothRegistered :=
    ⟨by decide, by decide, Or.inr (Or.inr rfl), 0, rfl⟩
  have hdelete : Requested select.build bothRegistered (.delete () 3 EV_WRABLE) readLeft :=
    ⟨by decide, by decide, Or.inr (Or.inl rfl), 0, rfl⟩
  have hkeeps : ¬ DropsMax select.build bothRegistered (.delete () 3 EV_WRABLE : Act Nat Nat Unit) :=
    fun hdrops => absurd hdrops.2.2.1 (by decide)
  exact (maxfd_exact_of_run newSelect_create
    (((Run.nil.snoc ⟨id, oneRegistered_requested⟩).snoc ⟨id, hcreate⟩).snoc ⟨hkeeps, hdelete⟩)).1

/-- When the one descriptor registered is deleted, `maxfd` becomes 0. -/
theorem maxfd_off_by_one : ∃ loop : event_loop Nat Nat select,
    Run (Requested select.build) newSelect [.create () 2 EV_RDABLE 7 0, .delete () 2 EV_RDABLE] loop ∧
      loop.maxfd = 0 ∧ loop.events.all (·.event = EV_NONE) ∧ ¬ MaxExact loop := by
  refine ⟨_, (Run.nil.snoc oneRegistered_requested).snoc
    (show Requested select.build oneRegistered (.delete () 2 EV_RDABLE) _ from
      ⟨by decide, by decide, Or.inl rfl, 0, rfl⟩), rfl, by decide, ?_⟩
  rintro (⟨hsome, -⟩ | ⟨hnone, -⟩)
  · exact absurd hsome (by decide)
  · exact absurd hnone (by decide)

end Akio.Event
