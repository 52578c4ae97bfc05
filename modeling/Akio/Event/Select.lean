import Akio.Event.Poll

/-!
# The build with select

Its two sets hold what is registered, and its scan goes over all of that.
-/

namespace Akio.Event

variable {C D : Type} {loop loop' loop₀ : event_loop C D select} {poller poller' : select} {n fd fd' q r : Int}
  {event : BitVec 32} {d : Direction} {cb : C} {data : D} {k : Unit} {value : Bool}

/-! ## The sets -/

def select.set (poller : select) : Direction → fd_set
  | .read => poller.rfds
  | .write => poller.wfds

/-- Each set has the descriptors that are registered for its direction. -/
def Selected (loop : event_loop C D select) : Prop :=
  ∀ fd d, loop.poller.set d fd = true ↔ mask loop fd &&& d.mask ≠ 0

theorem change_done (h : select.change (FD_ASSIGN value) poller fd event = .done (poller', q)) :
    q = 0 ∧ ∀ d fd', poller'.set d fd' = if fd' = fd ∧ event &&& d.mask ≠ 0 then value else poller.set d fd' := by
  have hmark {d : Direction} {set set' : fd_set} (hset : select.mark (FD_ASSIGN value) fd event d set = .done set')
      (fd' : Int) : set' fd' = if fd' = fd ∧ event &&& d.mask ≠ 0 then value else set fd' := by
    unfold select.mark FD_ASSIGN at hset
    split_ifs at hset with hevent hfd
    · rw [← Outcome.done.inj hset, Function.update_apply]
      simp only [hevent, and_true, ne_eq, not_false_eq_true]
    · rw [Outcome.done.inj hset, if_neg fun h => hevent h.2]
  unfold select.change at h
  obtain ⟨rfds, hread, h⟩ := Outcome.bind_eq_done.mp h
  obtain ⟨wfds, hwrite, h⟩ := Outcome.bind_eq_done.mp h
  obtain ⟨rfl, rfl⟩ := Prod.mk.inj (Outcome.done.inj h)
  refine ⟨rfl, ?_⟩
  intro d fd'
  cases d with
  | read => exact hmark hread fd'
  | write => exact hmark hwrite fd'

theorem Selected.marked {mask' : BitVec 32} (hs : Selected loop)
    (hmask : mask loop' = Function.update (mask loop) fd mask')
    (hset : ∀ d fd', loop'.poller.set d fd' =
      if fd' = fd ∧ event &&& d.mask ≠ 0 then value else loop.poller.set d fd')
    (hmask' : ∀ d : Direction, mask' &&& d.mask ≠ 0 ↔
      if event &&& d.mask ≠ 0 then value = true else mask loop fd &&& d.mask ≠ 0) : Selected loop' := by
  intro fd' d
  rw [hset, hmask, Function.update_apply]
  by_cases hfd' : fd' = fd
  · subst hfd'
    rw [if_pos rfl, hmask', ← hs]
    by_cases htouch : event &&& d.mask ≠ 0
    · rw [if_pos ⟨rfl, htouch⟩, if_pos htouch]
    · rw [if_neg fun h => htouch h.2, if_neg htouch]
  · rw [if_neg fun h => hfd' h.1, if_neg hfd']
    exact hs fd' d

theorem Selected.created (hs : Selected loop) (hc : Created select.build k loop fd event cb data loop' r) :
    Selected loop' := by
  cases hc with
  | refused hfd => exact hs
  | failed hfd hget hadd hq => exact absurd (change_done hadd).1 hq
  | @added poller ev hfd hget hadd =>
    apply hs.marked (mask_set hget rfl) (change_done hadd).2
    intro d
    rw [or_mask_ne, mask_of_event hget]
    split_ifs with htouch
    · exact iff_of_true (Or.inr htouch) rfl
    · exact or_iff_left htouch

theorem Selected.deleted (hs : Selected loop) (hd : Deleted select.build k loop fd event loop' r) :
    Selected loop' := by
  cases hd with
  | refused hfd => exact hs
  | absent hfd hget hnone => exact hs
  | failed hfd hget hsome hdel hq => exact absurd (change_done hdel).1 hq
  | @removed poller ev m hfd hget hsome hdel hkeep hlower =>
    apply hs.marked (mask_set hget rfl) (change_done hdel).2
    intro d
    rw [remove_mask_ne, mask_of_event hget]
    split_ifs with htouch
    · exact iff_of_false (fun h => h.2 htouch) id
    · exact and_iff_left htouch

theorem Requested.selected {act : Act C D Unit} (hs : Selected loop) (hreq : Requested select.build loop act loop') :
    Selected loop' :=
  hreq.elim (fun _ _ _ _ _ _ _ => hs.created) fun _ _ _ _ => hs.deleted

/-! ## The scan -/

theorem half_eq {j : Int} (hj : 0 ≤ j ∧ j < FD_SETSIZE) {set : fd_set} :
    select.half j event d set = .done (if event &&& d.mask ≠ 0 ∧ set j then d.mask else EV_NONE) := by
  unfold select.half FD_ISSET
  by_cases hevent : event &&& d.mask ≠ 0
  · rw [if_pos hevent, if_pos hj]
    simp only [hevent, true_and, ne_eq, not_false_eq_true]
    rfl
  · rw [if_neg hevent, if_neg fun h => hevent h.1]
    rfl

/-- The entry for a descriptor that is registered. -/
def scanned (loop : event_loop C D select) (crfds cwfds : fd_set) (j : Nat) : ev_active where
  fd := j
  event := (if mask loop j &&& EV_RDABLE ≠ 0 ∧ crfds j then EV_RDABLE else EV_NONE) |||
    (if mask loop j &&& EV_WRABLE ≠ 0 ∧ cwfds j then EV_WRABLE else EV_NONE)

theorem scanned_mask {j : Nat} {crfds cwfds : fd_set} : (scanned loop crfds cwfds j).event &&& d.mask ≠ 0 ↔
    mask loop j &&& d.mask ≠ 0 ∧ select.set ⟨crfds, cwfds⟩ d j := by
  have hread (p : Prop) [Decidable p] : (if p then EV_RDABLE else EV_NONE) &&& d.mask ≠ 0 ↔ p ∧ .read = d :=
    picked_mask_ne .read
  have hwrite (p : Prop) [Decidable p] : (if p then EV_WRABLE else EV_NONE) &&& d.mask ≠ 0 ↔ p ∧ .write = d :=
    picked_mask_ne .write
  unfold scanned
  rw [or_mask_ne, hread, hwrite]
  cases d <;> simp [select.set, Direction.mask]

theorem scan_eq {crfds cwfds : fd_set} {actives : List ev_active} {js : List Nat}
    (hserves : loop.events.length ≤ FD_SETSIZE) (hjs : ∀ j ∈ js, j < loop.events.length)
    (hroom : actives.length + js.length ≤ loop.setsize) : select.scan loop crfds cwfds actives js =
      .done (actives ++ (js.filter fun j : Nat => mask loop j ≠ EV_NONE).map (scanned loop crfds cwfds)) := by
  induction js generalizing actives with
  | nil => exact congrArg Outcome.done (List.append_nil _).symm
  | cons j js ih =>
    have hj := hjs j List.mem_cons_self
    have hrest : ∀ j ∈ js, j < loop.events.length := fun j hin => hjs j (List.mem_cons_of_mem _ hin)
    rw [List.length_cons] at hroom
    obtain ⟨ev, hget⟩ := getEvent_of_lt loop (show 0 ≤ (j : Int) by omega) (by omega)
    have hmask := mask_of_event hget
    unfold select.scan
    rw [hget, Outcome.done_bind]
    by_cases hnone : ev.event = EV_NONE
    · rw [if_pos hnone, ih hrest (by omega), List.filter_cons_of_neg (by simp [hmask, hnone])]
    · have hset : (0 : Int) ≤ j ∧ (j : Int) < FD_SETSIZE := by omega
      have hlt : (actives.length : Int) < loop.setsize := by omega
      unfold addActive
      rw [if_neg hnone, half_eq hset, Outcome.done_bind, half_eq hset, Outcome.done_bind, if_pos hlt,
        Outcome.done_bind, ih hrest (by simp only [List.length_append, List.length_singleton]; omega),
        List.filter_cons_of_pos (by simp [hmask, hnone]), List.map_cons, List.append_assoc, ← hmask]
      rfl

theorem scanned_reports {crfds cwfds : fd_set} {m : Nat} {sees : Int → Direction → Prop}
    (hm : m ≤ loop.events.length) (hbound : ∀ fd, mask loop fd ≠ EV_NONE → fd < m)
    (hsees : ∀ fd d, mask loop fd &&& d.mask ≠ 0 → (select.set ⟨crfds, cwfds⟩ d fd ↔ sees fd d)) :
    Reports loop sees
      (((List.range m).filter fun j : Nat => mask loop j ≠ EV_NONE).map (scanned loop crfds cwfds)) := by
  refine ⟨?_, ?_, ?_⟩
  · intro active hactive
    obtain ⟨j, hj, rfl⟩ := List.mem_map.mp hactive
    have := List.mem_range.mp (List.mem_filter.mp hj).1
    unfold scanned
    dsimp only
    omega
  · rw [List.map_map]
    apply List.Nodup.map (fun i j h => Int.ofNat.inj h)
    exact List.nodup_range.filter _
  · intro fd d hmask
    have hfd := (range_of_mask (ne_none_of_mask hmask)).1
    rw [← hsees fd d hmask]
    constructor
    · rintro ⟨active, hactive, hfd', hevent⟩
      obtain ⟨j, -, rfl⟩ := List.mem_map.mp hactive
      obtain rfl : (j : Int) = fd := hfd'
      exact (scanned_mask.mp hevent).2
    · intro hset
      obtain ⟨j, rfl⟩ := Int.eq_ofNat_of_zero_le hfd
      have hlt := hbound j (ne_none_of_mask hmask)
      refine ⟨scanned loop crfds cwfds j, ?_, rfl, scanned_mask.mpr ⟨hmask, hset⟩⟩
      apply List.mem_map_of_mem
      apply List.mem_filter.mpr ⟨List.mem_range.mpr (by omega), ?_⟩
      exact decide_eq_true (ne_none_of_mask hmask)

/-! ## The poll -/

/-- The directions that `poller_poll` makes of what `select` leaves in the sets. -/
def selectSees : Direction → BitVec 32 → Prop
  | .read, ready => readable ready
  | .write, ready => writable ready

theorem select_poll_fails {ready : Int → BitVec 32} {call : SelectCall} {timeout : Int}
    (hcall : SelectsFor ready call) (h : timeout < 0) :
    select.poller_poll call loop timeout = .done (loop.poller, []) := by
  have hneg : timeout.tdiv 1000 < 0 ∨ timeout.tmod 1000 * 1000 < 0 := by
    have := Int.tmod_add_mul_tdiv timeout 1000
    omega
  unfold select.poller_poll
  dsimp only
  rw [hcall.fails hneg]
  rfl

theorem left_sees {ready : Int → BitVec 32} {call : SelectCall} {sec usec retval : Int} {crfds cwfds : fd_set}
    (hs : Selected loop) (hcall : SelectsFor ready call) (hsec : 0 ≤ sec) (husec : 0 ≤ usec)
    (hanswer : call n loop.poller.rfds loop.poller.wfds sec usec = (retval, crfds, cwfds))
    (hfd : 0 ≤ fd ∧ fd < n) (hmask : mask loop fd &&& d.mask ≠ 0) :
    select.set ⟨crfds, cwfds⟩ d fd ↔ selectSees d (ready fd) := by
  have hset := (hs fd d).mpr hmask
  obtain ⟨hread, hwrite⟩ := hcall.leaves hsec husec hanswer fd hfd.1 hfd.2
  cases d with
  | read =>
    rw [show loop.poller.rfds fd = true from hset, Bool.true_and] at hread
    exact Bool.eq_iff_iff.mp hread
  | write =>
    rw [show loop.poller.wfds fd = true from hset, Bool.true_and] at hwrite
    exact Bool.eq_iff_iff.mp hwrite

theorem select_poll_spec {ready : Int → BitVec 32} {call : SelectCall} {timeout : Int} (hs : Selected loop)
    (hb : Bounded n loop) (hsize : loop.events.length = loop.setsize) (hserves : loop.setsize ≤ FD_SETSIZE)
    (hcall : SelectsFor ready call) (h : 0 ≤ timeout) :
    ∃ actives, select.poller_poll call loop timeout = .done (loop.poller, actives) ∧
      Reports loop (fun fd d => selectSees d (ready fd)) actives := by
  have hsec : 0 ≤ timeout.tdiv 1000 := Int.tdiv_nonneg h (by omega)
  have husec : 0 ≤ timeout.tmod 1000 * 1000 := Int.mul_nonneg (Int.tmod_nonneg 1000 h) (by omega)
  obtain ⟨retval, crfds, cwfds, hanswer⟩ : ∃ retval crfds cwfds, call (loop.maxfd + 1) loop.poller.rfds
      loop.poller.wfds (timeout.tdiv 1000) (timeout.tmod 1000 * 1000) = (retval, crfds, cwfds) := ⟨_, _, _, rfl⟩
  have hin {fd : Int} (hmask : mask loop fd ≠ EV_NONE) : 0 ≤ fd ∧ fd < loop.maxfd + 1 :=
    ⟨(range_of_mask hmask).1, Int.lt_add_one_of_le (hb.bound fd hmask)⟩
  have hleft (fd : Int) (d : Direction) (hmask : mask loop fd &&& d.mask ≠ 0) :
      select.set ⟨crfds, cwfds⟩ d fd ↔ selectSees d (ready fd) :=
    left_sees hs hcall hsec husec hanswer (hin (ne_none_of_mask hmask)) hmask
  unfold select.poller_poll
  dsimp only
  rw [hanswer]
  by_cases hsome : retval > 0
  · have hlast := hb.maxfd
    have hlength := hb.length
    have hscan : select.scan loop crfds cwfds [] (List.range (loop.maxfd + 1).toNat) = _ :=
      scan_eq (by omega) (fun j hj => by have := List.mem_range.mp hj; omega)
        (by rw [List.length_nil, List.length_range]; omega)
    rw [List.nil_append] at hscan
    simp only [if_pos hsome]
    refine ⟨_, (congrArg (· >>= _) hscan).trans rfl, scanned_reports ?_ ?_ hleft⟩
    · omega
    · intro fd hmask
      have := hb.bound fd hmask
      omega
  · refine ⟨[], ?_, by simp, by simp, ?_⟩
    · simp only [if_neg hsome]
      rfl
    · intro fd d hmask
      rw [← hleft fd d hmask]
      apply iff_of_false (by simp)
      intro hset
      obtain ⟨h0, hlt⟩ := hin (ne_none_of_mask hmask)
      apply hsome
      apply (hcall.counts hsec husec hanswer).mpr ⟨fd, h0, hlt, ?_⟩
      cases d with
      | read => exact Or.inl hset
      | write => exact Or.inr hset

end Akio.Event
