import Akio.Event.Interest
import Mathlib.Data.List.Perm.Subperm

/-!
# What each build calls for

The kernel is told what the descriptors are ready for, and answers the two calls as their manuals say. Each
build then calls the callbacks of the directions that it sees as ready.
-/

namespace Akio.Event

variable {C D P K R : Type} {b : Poller C D P K R} {loop : event_loop C D P} {n fd : Int} {d : Direction}
  {x y z : BitVec 32}

/-! ## The kernel -/

/-- What `epoll_wait` reports for a descriptor of the set. -/
def report (ready : BitVec 32) (ee : epoll_event) : epoll_event where
  events := ready &&& (ee.events ||| EPOLLERR ||| EPOLLHUP)
  fd := ee.fd

/-- `epoll_wait` answers with every descriptor that it has to report, in any order. Without a limit of time it
waits for one. -/
structure WaitsFor (ready : Int → BitVec 32) (wait : epoll_wait) : Prop where
  answers : ∀ {set maxevents timeout answer}, (∀ fd, (set fd).isSome → 0 ≤ fd ∧ fd < maxevents) →
    wait set maxevents timeout = some answer → ∃ fds : List Int, fds.Nodup ∧
      (∀ fd, fd ∈ fds ↔ ∃ ee ∈ set fd, (report (ready fd) ee).events ≠ 0) ∧
      answer = fds.filterMap fun fd => (set fd).map (report (ready fd))
  endless : ∀ {set maxevents timeout}, (∀ fd, (set fd).isSome → 0 ≤ fd ∧ fd < maxevents) →
    (wait set maxevents timeout = none ↔
      timeout < 0 ∧ ∀ fd, ∀ ee ∈ set fd, (report (ready fd) ee).events = 0)

def readable (ready : BitVec 32) : Bool := ready &&& (EPOLLIN ||| EPOLLHUP ||| EPOLLERR) ≠ 0
def writable (ready : BitVec 32) : Bool := ready &&& (EPOLLOUT ||| EPOLLERR) ≠ 0

/-- `select` leaves the descriptors that are ready in the two sets. It fails where the time is negative. -/
structure SelectsFor (ready : Int → BitVec 32) (call : SelectCall) : Prop where
  fails : ∀ {nfds rfds wfds sec usec}, sec < 0 ∨ usec < 0 → (call nfds rfds wfds sec usec).1 = -1
  leaves : ∀ {nfds rfds wfds sec usec retval crfds cwfds}, 0 ≤ sec → 0 ≤ usec →
    call nfds rfds wfds sec usec = (retval, crfds, cwfds) → ∀ fd, 0 ≤ fd → fd < nfds →
      crfds fd = (rfds fd && readable (ready fd)) ∧ cwfds fd = (wfds fd && writable (ready fd))
  counts : ∀ {nfds rfds wfds sec usec retval crfds cwfds}, 0 ≤ sec → 0 ≤ usec →
    call nfds rfds wfds sec usec = (retval, crfds, cwfds) →
      (retval > 0 ↔ ∃ fd, 0 ≤ fd ∧ fd < nfds ∧ (crfds fd ∨ cwfds fd))

/-- The descriptors that there is something to report for. -/
def pending (ready : Int → BitVec 32) (set : Int → Option epoll_event) (maxevents : Int) : List Int :=
  ((List.range maxevents.toNat).map Int.ofNat).filter fun fd => (set fd).any fun ee => (report (ready fd) ee).events ≠ 0

/-- A kernel that answers so, with the descriptors in order. -/
def waitOf (ready : Int → BitVec 32) : epoll_wait := fun set maxevents timeout =>
  if timeout < 0 ∧ pending ready set maxevents = [] then none
  else some ((pending ready set maxevents).filterMap fun fd => (set fd).map (report (ready fd)))

def selectOf (ready : Int → BitVec 32) : SelectCall := fun nfds rfds wfds sec usec =>
  let crfds fd := rfds fd && readable (ready fd)
  let cwfds fd := wfds fd && writable (ready fd)
  if sec < 0 ∨ usec < 0 then (-1, rfds, wfds)
  else
    let count set := (List.range nfds.toNat).countP fun j : Nat => set j
    (count crfds + count cwfds, crfds, cwfds)

theorem mem_pending {ready : Int → BitVec 32} {set : Int → Option epoll_event} {maxevents : Int}
    (hset : ∀ fd, (set fd).isSome → 0 ≤ fd ∧ fd < maxevents) :
    fd ∈ pending ready set maxevents ↔ ∃ ee ∈ set fd, (report (ready fd) ee).events ≠ 0 := by
  unfold pending
  rw [List.mem_filter, Option.any_eq_true]
  simp only [decide_eq_true_eq]
  apply and_iff_right_of_imp
  rintro ⟨ee, hee, -⟩
  have hlt := hset fd (Option.isSome_iff_exists.mpr ⟨ee, hee⟩)
  exact List.mem_map.mpr ⟨fd.toNat, List.mem_range.mpr (by omega), Int.toNat_of_nonneg hlt.1⟩

theorem waitsFor_wait_of (ready : Int → BitVec 32) : WaitsFor ready (waitOf ready) := by
  unfold waitOf
  constructor
  · intro set maxevents timeout answer hset hanswer
    split_ifs at hanswer
    refine ⟨_, ?_, fun fd => mem_pending hset, (Option.some.inj hanswer).symm⟩
    apply List.Nodup.filter
    apply List.Nodup.map (fun i j h => Int.ofNat.inj h) List.nodup_range
  · intro set maxevents timeout hset
    constructor
    · intro hnone
      split_ifs at hnone with h
      refine ⟨h.1, ?_⟩
      intro fd ee hee
      apply by_contra
      intro hne
      have hin := (mem_pending hset).mpr ⟨ee, hee, hne⟩
      rw [h.2] at hin
      cases hin
    · rintro ⟨hneg, hquiet⟩
      have hnil : pending ready set maxevents = [] := by
        apply List.eq_nil_iff_forall_not_mem.mpr
        intro fd hin
        obtain ⟨ee, hee, hne⟩ := (mem_pending hset).mp hin
        exact hne (hquiet fd ee hee)
      exact if_pos ⟨hneg, hnil⟩

theorem selectsFor_select_of (ready : Int → BitVec 32) : SelectsFor ready (selectOf ready) := by
  unfold selectOf
  constructor
  · intro nfds rfds wfds sec usec hneg
    dsimp only
    rw [if_pos hneg]
  · intro nfds rfds wfds sec usec retval crfds cwfds hsec husec hanswer fd h0 hlt
    dsimp only at hanswer
    rw [if_neg (by omega)] at hanswer
    obtain ⟨-, hleft⟩ := Prod.mk.inj hanswer
    obtain ⟨rfl, rfl⟩ := Prod.mk.inj hleft
    exact ⟨rfl, rfl⟩
  · intro nfds rfds wfds sec usec retval crfds cwfds hsec husec hanswer
    dsimp only at hanswer
    rw [if_neg (by omega)] at hanswer
    obtain ⟨rfl, hleft⟩ := Prod.mk.inj hanswer
    obtain ⟨rfl, rfl⟩ := Prod.mk.inj hleft
    have hcount (set : fd_set) :
        0 < (List.range nfds.toNat).countP (fun j : Nat => set j) ↔ ∃ fd, 0 ≤ fd ∧ fd < nfds ∧ set fd := by
      rw [List.countP_pos_iff]
      constructor
      · rintro ⟨j, hj, hset⟩
        have := List.mem_range.mp hj
        exact ⟨j, by omega, by omega, hset⟩
      · rintro ⟨fd, h0, hlt, hset⟩
        refine ⟨fd.toNat, List.mem_range.mpr (by omega), ?_⟩
        rwa [Int.toNat_of_nonneg h0]
    have hsum {a b : Nat} : (a : Int) + b > 0 ↔ 0 < a ∨ 0 < b := by omega
    rw [hsum, hcount fun fd => rfds fd && readable (ready fd), hcount fun fd => wfds fd && writable (ready fd),
      ← exists_or]
    simp only [← and_or_left]

/-! ## Callbacks that leave the registry alone -/

def Entry.called : Entry C D → Option (Int × Direction)
  | .invoked fd d _ _ => some (fd, d)
  | _ => none

/-- The callbacks that were called. -/
def called (log : List (Entry C D)) : List (Int × Direction) := log.filterMap Entry.called

theorem ne_none_of_mask (h : x &&& d.mask ≠ 0) : x ≠ EV_NONE := by
  rintro rfl
  exact h BitVec.zero_and

theorem picked_mask_ne {p : Prop} [Decidable p] (d' : Direction) :
    (if p then d'.mask else EV_NONE) &&& d.mask ≠ 0 ↔ p ∧ d' = d := by
  split_ifs with hp <;> cases d <;> cases d' <;> simp [hp, Direction.mask, EV_RDABLE, EV_WRABLE, EV_NONE]

/-- The callbacks that an entry of `actives` leads to. -/
def callsOf (loop : event_loop C D P) (active : ev_active) : List (Int × Direction) :=
  ([.read, .write].filter fun d => mask loop active.fd &&& active.event &&& d.mask ≠ 0).map (active.fd, ·)

theorem callsOf_eq (loop : event_loop C D P) (active : ev_active) : callsOf loop active =
    (if mask loop active.fd &&& active.event &&& Direction.read.mask ≠ 0 then [(active.fd, .read)] else []) ++
    (if mask loop active.fd &&& active.event &&& Direction.write.mask ≠ 0 then [(active.fd, .write)] else []) := by
  unfold callsOf
  simp only [List.filter_cons, List.filter_nil, decide_eq_true_eq]
  split_ifs <;> rfl

theorem mem_callsOf {active : ev_active} {p : Int × Direction} :
    p ∈ callsOf loop active ↔ p.1 = active.fd ∧ mask loop p.1 &&& p.2.mask ≠ 0 ∧ active.event &&& p.2.mask ≠ 0 := by
  obtain ⟨fd, d⟩ := p
  unfold callsOf
  simp only [List.mem_map, List.mem_filter, decide_eq_true_eq, Prod.mk.injEq]
  constructor
  · rintro ⟨d', ⟨-, hcall⟩, rfl, rfl⟩
    exact ⟨rfl, both_mask_ne.mp hcall⟩
  · rintro ⟨rfl, hcall⟩
    refine ⟨d, ⟨?_, both_mask_ne.mpr hcall⟩, rfl, rfl⟩
    cases d <;> simp

theorem nodup_callsOf {actives : List ev_active}
    (h : (actives.map ev_active.fd).Nodup) : (actives.flatMap (callsOf loop)).Nodup := by
  rw [List.nodup_flatMap]
  constructor
  · intro active hin
    apply List.Nodup.map
    · intro d d' heq
      exact (Prod.mk.inj heq).2
    · apply List.Nodup.filter
      decide
  · apply (List.pairwise_map.mp h).imp
    intro active active' hne p hp hp'
    exact hne ((mem_callsOf.mp hp).1.symm.trans (mem_callsOf.mp hp').1)

theorem dispatch_calls {log : List (Entry C D)} {actives : List ev_active} {j : Nat}
    (hr : Recorded n loop log) (hfds : ∀ active ∈ actives, 0 ≤ active.fd ∧ active.fd < n) :
    ∃ log', dispatch b (fun _ _ => ([] : List (Act C D K))) loop j actives = .done (loop, log') ∧
      called log' = actives.flatMap (callsOf loop) := by
  have hinvoke (active : ev_active) (d : Direction) (hfd : 0 ≤ active.fd ∧ active.fd < n) :
      ∃ log', invoke b loop active d ([] : List (Act C D K)) = .done (loop, log') ∧
        called log' = if mask loop active.fd &&& active.event &&& d.mask ≠ 0 then [(active.fd, d)] else [] := by
    obtain ⟨ev, hget⟩ := getEvent_of_lt loop hfd.1 (by rw [hr.length]; exact hfd.2)
    unfold invoke
    rw [hget, Outcome.done_bind, mask_of_event hget]
    by_cases hcall : ev.event &&& active.event &&& d.mask ≠ 0
    · obtain ⟨cb, data, hslot, hdata, -⟩ := hr.entry _ _ _ hget (both_mask_ne.mp hcall).1
      rw [if_pos hcall, if_pos hcall]
      simp only [hslot, hdata, Outcome.ofOption_some, Outcome.done_bind]
      exact ⟨_, rfl, rfl⟩
    · rw [if_neg hcall, if_neg hcall]
      exact ⟨[], rfl, rfl⟩
  induction actives generalizing j with
  | nil => exact ⟨[], rfl, rfl⟩
  | cons active actives ih =>
    have hfd := hfds active List.mem_cons_self
    obtain ⟨log₁, hread, hcalled₁⟩ := hinvoke active .read hfd
    obtain ⟨log₂, hwrite, hcalled₂⟩ := hinvoke active .write hfd
    obtain ⟨log₃, hrest, hcalled₃⟩ := ih (j := j + 1) fun active hin => hfds active (List.mem_cons_of_mem _ hin)
    refine ⟨log₁ ++ log₂ ++ log₃, ?_, ?_⟩
    · unfold dispatch
      rw [hread, Outcome.done_bind]
      dsimp only
      rw [hwrite, Outcome.done_bind]
      exact (congrArg (· >>= _) hrest).trans rfl
    · unfold called at hcalled₁ hcalled₂ hcalled₃ ⊢
      rw [List.filterMap_append, List.filterMap_append, hcalled₁, hcalled₂, hcalled₃, List.flatMap_cons, callsOf_eq]

/-- `actives` names descriptors of the loop, each once, and of what is registered it reports what `sees` says. -/
structure Reports (loop : event_loop C D P) (sees : Int → Direction → Prop) (actives : List ev_active) : Prop where
  range : ∀ active ∈ actives, 0 ≤ active.fd ∧ active.fd < loop.events.length
  distinct : (actives.map ev_active.fd).Nodup
  reported : ∀ fd d, mask loop fd &&& d.mask ≠ 0 →
    ((∃ active ∈ actives, active.fd = fd ∧ active.event &&& d.mask ≠ 0) ↔ sees fd d)

theorem Reports.mem_calls {sees : Int → Direction → Prop} {actives : List ev_active} {p : Int × Direction}
    (h : Reports loop sees actives) :
    p ∈ actives.flatMap (callsOf loop) ↔ mask loop p.1 &&& p.2.mask ≠ 0 ∧ sees p.1 p.2 := by
  simp only [List.mem_flatMap, mem_callsOf]
  constructor
  · rintro ⟨active, hin, hfd, hmask, hactive⟩
    exact ⟨hmask, (h.reported p.1 p.2 hmask).mp ⟨active, hin, hfd.symm, hactive⟩⟩
  · rintro ⟨hmask, hsees⟩
    obtain ⟨active, hin, hfd, hactive⟩ := (h.reported p.1 p.2 hmask).mpr hsees
    exact ⟨active, hin, hfd.symm, hmask, hactive⟩

/-! ## epoll -/

theorem and_or_ne : x &&& (y ||| z) ≠ 0 ↔ x &&& y ≠ 0 ∨ x &&& z ≠ 0 := by
  rw [BitVec.and_or_distrib_left]
  exact (not_congr BitVec.or_eq_zero_iff).trans not_and_or

theorem and_in_ne : x &&& EPOLLIN ≠ 0 ↔ x.getLsbD 0 = true :=
  Bits.and_twoPow_ne_zero (w := 32) (i := 0) (by omega)

theorem and_out_ne : x &&& EPOLLOUT ≠ 0 ↔ x.getLsbD 2 = true :=
  Bits.and_twoPow_ne_zero (w := 32) (i := 2) (by omega)

theorem and_err_ne : x &&& EPOLLERR ≠ 0 ↔ x.getLsbD 3 = true :=
  Bits.and_twoPow_ne_zero (w := 32) (i := 3) (by omega)

theorem and_hup_ne : x &&& EPOLLHUP ≠ 0 ↔ x.getLsbD 4 = true :=
  Bits.and_twoPow_ne_zero (w := 32) (i := 4) (by omega)

/-- The directions that `poller_poll` makes of what `epoll_wait` reports. -/
def epollSees : Direction → BitVec 32 → Prop
  | .read, events => events &&& EPOLLIN ≠ 0
  | .write, events => events &&& EPOLLOUT ≠ 0 ∨ events &&& EPOLLERR ≠ 0 ∨ events &&& EPOLLHUP ≠ 0

theorem active_mask {e : epoll_event} : (epoll.active e).event &&& d.mask ≠ 0 ↔ epollSees d e.events := by
  have hread (p : Prop) [Decidable p] : (if p then EV_RDABLE else EV_NONE) &&& d.mask ≠ 0 ↔ p ∧ .read = d :=
    picked_mask_ne .read
  have hwrite (p : Prop) [Decidable p] : (if p then EV_WRABLE else EV_NONE) &&& d.mask ≠ 0 ↔ p ∧ .write = d :=
    picked_mask_ne .write
  unfold epoll.active
  simp only [or_mask_ne, hread, hwrite]
  cases d <;> simp [epollSees, or_assoc]

theorem Watched.sees {loop : event_loop C D epoll} {ready : BitVec 32} {ee : epoll_event} (hw : Watched loop fd ee)
    (h : mask loop fd &&& d.mask ≠ 0) : epollSees d (report ready ee).events ↔ epollSees d ready := by
  unfold epollSees report
  cases d with
  | read =>
    have hin := and_in_ne.mp (hw.read.mpr h)
    simp only [and_in_ne, BitVec.getLsbD_and, BitVec.getLsbD_or, hin]
    simp
  | write =>
    have hout := and_out_ne.mp (hw.write.mpr h)
    simp only [and_out_ne, and_err_ne, and_hup_ne, BitVec.getLsbD_and, BitVec.getLsbD_or, hout]
    simp [EPOLLERR, EPOLLHUP]

theorem not_sees_zero : ¬ epollSees d 0 := by
  unfold epollSees
  cases d <;> simp

theorem fillActives_eq {loop : event_loop C D epoll} {actives : List ev_active} {answer : List epoll_event}
    (hroom : actives.length + answer.length ≤ loop.setsize) :
    epoll.fillActives loop actives answer = .done (actives ++ answer.map epoll.active) := by
  induction answer generalizing actives with
  | nil => exact congrArg Outcome.done (List.append_nil _).symm
  | cons e answer ih =>
    rw [List.length_cons] at hroom
    have hlt : (actives.length : Int) < loop.setsize := by omega
    unfold epoll.fillActives addActive
    rw [if_pos hlt, Outcome.done_bind, ih (by simp only [List.length_append, List.length_singleton]; omega)]
    simp

theorem length_le_of_nodup {fds : List Int} (hnodup : fds.Nodup)
    (hrange : ∀ fd ∈ fds, 0 ≤ fd ∧ fd < loop.events.length) : fds.length ≤ loop.events.length := by
  have hsub : fds ⊆ (List.range loop.events.length).map Int.ofNat := by
    intro fd hfd
    have hlt := hrange fd hfd
    exact List.mem_map.mpr ⟨fd.toNat, List.mem_range.mpr (by omega), Int.toNat_of_nonneg hlt.1⟩
  have hle := (List.subperm_of_subset hnodup hsub).length_le
  rwa [List.length_map, List.length_range] at hle

theorem map_fd_answer {set : Int → Option epoll_event} {ready : Int → BitVec 32} {fds : List Int}
    (h : ∀ fd ∈ fds, ∃ ee ∈ set fd, ee.fd = fd) :
    ((fds.filterMap fun fd => (set fd).map (report (ready fd))).map epoll.active).map ev_active.fd = fds := by
  induction fds with
  | nil => rfl
  | cons fd fds ih =>
    obtain ⟨ee, hee, hfd⟩ := h fd List.mem_cons_self
    have hset : (set fd).map (report (ready fd)) = some (report (ready fd) ee) := congrArg _ hee
    have hrest := ih fun fd' hin => h fd' (List.mem_cons_of_mem _ hin)
    simp only [List.filterMap_cons, hset, List.map_cons, hrest]
    exact congrArg (· :: fds) hfd

theorem Mirrors.watching {loop : event_loop C D epoll} (hm : Mirrors loop) (h : mask loop fd &&& d.mask ≠ 0) :
    ∃ ee, loop.poller.interest fd = some ee ∧ Watched loop fd ee := by
  have hpresent := (hm.present fd).mpr (ne_none_of_mask h)
  obtain ⟨ee, hee⟩ := Option.isSome_iff_exists.mp hpresent
  exact ⟨ee, hee, hm.watched fd ee hee⟩

theorem answer_reports {loop : event_loop C D epoll} {ready : Int → BitVec 32} {fds : List Int}
    {answer : List epoll_event} (hm : Mirrors loop) (hnodup : fds.Nodup)
    (hmem : ∀ fd, fd ∈ fds ↔ ∃ ee ∈ loop.poller.interest fd, (report (ready fd) ee).events ≠ 0)
    (hfill : answer = fds.filterMap fun fd => (loop.poller.interest fd).map (report (ready fd))) :
    Reports loop (fun fd d => epollSees d (ready fd)) (answer.map epoll.active) ∧
      answer.length ≤ loop.events.length := by
  have hwatched : ∀ fd ∈ fds, ∃ ee, loop.poller.interest fd = some ee ∧ ee.fd = fd := by
    intro fd hfd
    obtain ⟨ee, hee, -⟩ := (hmem fd).mp hfd
    exact ⟨ee, hee, (hm.watched fd ee hee).data⟩
  have hfds : (answer.map epoll.active).map ev_active.fd = fds := by
    rw [hfill]
    exact map_fd_answer hwatched
  have hin : ∀ fd ∈ fds, 0 ≤ fd ∧ fd < loop.events.length := by
    intro fd hfd
    obtain ⟨ee, hee, -⟩ := hwatched fd hfd
    exact range_of_mask ((hm.present fd).mp (Option.isSome_iff_exists.mpr ⟨ee, hee⟩))
  refine ⟨⟨?_, ?_, ?_⟩, ?_⟩
  · intro active hactive
    have hfd := List.mem_map_of_mem (f := ev_active.fd) hactive
    rw [hfds] at hfd
    exact hin _ hfd
  · rw [hfds]
    exact hnodup
  · intro fd d hmask
    obtain ⟨ee, hee, hw⟩ := hm.watching hmask
    rw [← hw.sees hmask]
    constructor
    · rintro ⟨active, hactive, hfd, hsees⟩
      obtain ⟨e, he, rfl⟩ := List.mem_map.mp hactive
      rw [hfill] at he
      obtain ⟨fd', hfd', hset⟩ := List.mem_filterMap.mp he
      obtain ⟨ee', hee', hdata⟩ := hwatched fd' hfd'
      rw [hee'] at hset
      obtain rfl := Option.some.inj hset
      obtain rfl : fd' = fd := hdata.symm.trans hfd
      obtain rfl := Option.some.inj (hee.symm.trans hee')
      exact active_mask.mp hsees
    · intro hsees
      have hreported : (report (ready fd) ee).events ≠ 0 := by
        intro hzero
        rw [hzero] at hsees
        exact not_sees_zero hsees
      refine ⟨epoll.active (report (ready fd) ee), ?_, hw.data, active_mask.mpr hsees⟩
      apply List.mem_map_of_mem
      rw [hfill]
      apply List.mem_filterMap.mpr ⟨fd, (hmem fd).mpr ⟨ee, hee, hreported⟩, ?_⟩
      rw [hee]
      rfl
  · have hlength := (congrArg List.length hfds).trans_le (length_le_of_nodup hnodup hin)
    rwa [List.length_map, List.length_map] at hlength

/-- It waits for ever where nothing that is registered is ready, or reports what is. -/
theorem epoll_poll_spec {loop : event_loop C D epoll} {ready : Int → BitVec 32} {wait : epoll_wait}
    (hm : Mirrors loop) (hsize : loop.events.length = loop.setsize) (hwait : WaitsFor ready wait) (timeout : Int) :
    (epoll.poller_poll wait loop timeout = .running ∧ timeout < 0 ∧
      ∀ fd d, mask loop fd &&& d.mask ≠ 0 → ¬ epollSees d (ready fd)) ∨
    ∃ actives, epoll.poller_poll wait loop timeout = .done (loop.poller, actives) ∧
      Reports loop (fun fd d => epollSees d (ready fd)) actives := by
  have hrange : ∀ fd, (loop.poller.interest fd).isSome → 0 ≤ fd ∧ fd < loop.setsize := by
    intro fd hsome
    have := range_of_mask ((hm.present fd).mp hsome)
    omega
  unfold epoll.poller_poll
  cases hanswer : wait loop.poller.interest loop.setsize timeout with
  | none =>
    obtain ⟨hneg, hquiet⟩ := (hwait.endless hrange).mp hanswer
    refine Or.inl ⟨rfl, hneg, ?_⟩
    intro fd d hmask
    obtain ⟨ee, hee, hw⟩ := hm.watching hmask
    rw [← hw.sees hmask, hquiet fd ee hee]
    exact not_sees_zero
  | some answer =>
    obtain ⟨fds, hnodup, hmem, hfill⟩ := hwait.answers hrange hanswer
    obtain ⟨hreports, hlength⟩ := answer_reports hm hnodup hmem hfill
    refine Or.inr ⟨answer.map epoll.active, ?_, hreports⟩
    exact (congrArg (· >>= _) (fillActives_eq (by rw [List.length_nil]; omega))).trans rfl

end Akio.Event
