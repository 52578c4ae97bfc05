import Akio.Event.Poller
import Akio.Lib.Bits
import Akio.Lib.Run
import Akio.Timer.Process
import Mathlib.Data.List.Nodup

/-!
# Which callbacks are called

A callback that is called is the one of the latest `create_event` of its direction, it was reported by the
poll, and no batch calls it twice. A call of `process_events` is two steps here, so that what the callbacks of
timers do to the registry can come after the first.
-/

namespace Akio.Event

variable {C D P K R : Type} {b : Poller C D P K R} {loop loop' : event_loop C D P} {n fd : Int} {d : Direction}
  {event x y : BitVec 32} {cb : C} {data : D} {log log' before during : List (Entry C D)} {e : Entry C D}
  {act : Act C D K} {acts : List (Act C D K)} {active : ev_active} {actives : List ev_active}
  {served : Int → Direction → Prop}

/-! ## Directions as bits -/

def Direction.bit : Direction → Nat
  | .read => 0
  | .write => 1

theorem and_mask_ne : x &&& d.mask ≠ 0 ↔ x.getLsbD d.bit = true := by
  cases d with
  | read => exact Bits.and_twoPow_ne_zero (w := 32) (i := 0) (by omega)
  | write => exact Bits.and_twoPow_ne_zero (w := 32) (i := 1) (by omega)

theorem or_mask_ne : (x ||| y) &&& d.mask ≠ 0 ↔ x &&& d.mask ≠ 0 ∨ y &&& d.mask ≠ 0 := by
  simp only [and_mask_ne, BitVec.getLsbD_or, Bool.or_eq_true]

theorem remove_mask_ne : (x &&& ~~~y) &&& d.mask ≠ 0 ↔ x &&& d.mask ≠ 0 ∧ ¬ y &&& d.mask ≠ 0 := by
  have hd : d.bit < 32 := by cases d <;> decide
  simp only [and_mask_ne, BitVec.getLsbD_and, BitVec.getLsbD_not, hd, decide_true, Bool.true_and,
    Bool.and_eq_true, Bool.not_eq_true', Bool.not_eq_true]

theorem both_mask_ne : x &&& y &&& d.mask ≠ 0 ↔ x &&& d.mask ≠ 0 ∧ y &&& d.mask ≠ 0 := by
  simp only [and_mask_ne, BitVec.getLsbD_and, Bool.and_eq_true]

/-! ## The history -/

def touch (fd : Int) (d : Direction) (last : Option C) : Entry C D → Option C
  | .created fd' event cb => if fd' = fd ∧ event &&& d.mask ≠ 0 then some cb else last
  | .deleted fd' event => if fd' = fd ∧ event &&& d.mask ≠ 0 then none else last
  | _ => last

/-- The callback of the latest entry that touches the direction of `fd`, if that entry is a creation. -/
def registered (log : List (Entry C D)) (fd : Int) (d : Direction) : Option C := log.foldl (touch fd d) none

def Entry.isReport : Entry C D → Prop
  | .reported _ => True
  | _ => False

def Entry.isChange : Entry C D → Prop
  | .created .. | .deleted .. => True
  | _ => False

/-- The callback may be called after `log`: it is the one registered last, and the latest poll reported the
direction, for which nothing was called since. -/
structure Due (log : List (Entry C D)) (fd : Int) (d : Direction) (cb : C) : Prop where
  latest : registered log fd d = some cb
  polled : ∃ before actives during, log = before ++ .reported actives :: during ∧
    (∀ e ∈ during, ¬ e.isReport) ∧ (∃ active ∈ actives, active.fd = fd ∧ active.event &&& d.mask ≠ 0) ∧
    ∀ cb data, .invoked fd d cb data ∉ during

def Faithful (log : List (Entry C D)) : Prop :=
  ∀ before fd d cb data after, log = before ++ .invoked fd d cb data :: after → Due before fd d cb

theorem registered_snoc : registered (log ++ [e]) fd d = touch fd d (registered log fd d) e := by
  unfold registered
  rw [List.foldl_append]
  rfl

theorem Faithful.snoc (hf : Faithful log)
    (hdue : ∀ fd d cb data, e = .invoked fd d cb data → Due log fd d cb) : Faithful (log ++ [e]) := by
  intro before fd d cb data after heq
  rcases List.eq_nil_or_concat after with rfl | ⟨after, last, rfl⟩
  · obtain ⟨rfl, he⟩ := List.append_inj' heq rfl
    exact hdue fd d cb data (List.singleton_inj.mp he)
  · rw [List.concat_eq_append, ← List.cons_append, ← List.append_assoc] at heq
    exact hf before fd d cb data after (List.append_inj' heq rfl).1

/-- The loop has `n` entries. What is registered has a callback and data, and the callback is the one of the
history. -/
structure Recorded (n : Int) (loop : event_loop C D P) (log : List (Entry C D)) : Prop where
  setsize : loop.setsize = n
  length : loop.events.length = n
  entry : ∀ fd ev d, getEvent loop fd = .done ev → ev.event &&& d.mask ≠ 0 →
    ∃ cb data, ev.slot d = some cb ∧ ev.data = some data ∧ registered log fd d = some cb

theorem Recorded.congr (hr : Recorded n loop log) (hevents : loop'.events = loop.events)
    (hsize : loop'.setsize = loop.setsize) (h : ∀ fd d, registered log' fd d = registered log fd d) :
    Recorded n loop' log' := by
  refine ⟨hsize.trans hr.setsize, by rw [hevents]; exact hr.length, ?_⟩
  intro fd ev d hget hev
  rw [getEvent_congr hevents] at hget
  rw [h]
  exact hr.entry fd ev d hget hev

theorem Created.entry {k : K} {r fd' : Int} {ev' : ev_event C D} (hc : Created b k loop fd event cb data loop' r)
    (hget' : getEvent loop' fd' = .done ev') (hdue : ev'.event &&& d.mask ≠ 0) :
    (r = 0 ∧ fd' = fd ∧ event &&& d.mask ≠ 0) ∧ ev'.slot d = some cb ∧ ev'.data = some data ∨
    ¬ (r = 0 ∧ fd' = fd ∧ event &&& d.mask ≠ 0) ∧ ∃ ev, getEvent loop fd' = .done ev ∧ ev.event &&& d.mask ≠ 0 ∧
      ev'.slot d = ev.slot d ∧ (ev'.data = ev.data ∨ ev'.data = some data) := by
  cases hc with
  | refused hfd => exact Or.inr ⟨by omega, ev', hget', hdue, rfl, Or.inl rfl⟩
  | failed hfd hget hadd hq => exact Or.inr ⟨by omega, ev', hget', hdue, rfl, Or.inl rfl⟩
  | @added poller ev hfd hget hadd =>
    rw [getEvent_set hget rfl] at hget'
    by_cases hfd' : fd' = fd
    · rw [if_pos hfd'] at hget'
      obtain rfl := Outcome.done.inj hget'
      by_cases htouch : event &&& d.mask ≠ 0
      · refine Or.inl ⟨⟨rfl, hfd', htouch⟩, ?_, rfl⟩
        cases d <;> exact if_pos htouch
      · have hold := (or_mask_ne.mp hdue).resolve_right htouch
        refine Or.inr ⟨fun h => htouch h.2.2, ev, hfd' ▸ hget, hold, ?_, Or.inr rfl⟩
        cases d <;> exact if_neg htouch
    · rw [if_neg hfd'] at hget'
      exact Or.inr ⟨fun h => hfd' h.2.1, ev', hget', hdue, rfl, Or.inl rfl⟩

theorem Deleted.entry {k : K} {r fd' : Int} {ev' : ev_event C D} (hd : Deleted b k loop fd event loop' r)
    (hget' : getEvent loop' fd' = .done ev') (hdue : ev'.event &&& d.mask ≠ 0) :
    ¬ (r = 0 ∧ fd' = fd ∧ event &&& d.mask ≠ 0) ∧ ∃ ev, getEvent loop fd' = .done ev ∧ ev.event &&& d.mask ≠ 0 ∧
      ev'.slot d = ev.slot d ∧ ev'.data = ev.data := by
  cases hd with
  | refused hfd => exact ⟨by omega, ev', hget', hdue, rfl, rfl⟩
  | absent hfd hget hnone =>
    refine ⟨?_, ev', hget', hdue, rfl, rfl⟩
    rintro ⟨-, rfl, -⟩
    obtain rfl := Outcome.done.inj (hget.symm.trans hget')
    rw [hnone] at hdue
    exact hdue BitVec.zero_and
  | failed hfd hget hsome hdel hq => exact ⟨by omega, ev', hget', hdue, rfl, rfl⟩
  | @removed poller ev m hfd hget hsome hdel hkeep hlower =>
    rw [getEvent_set hget rfl] at hget'
    by_cases hfd' : fd' = fd
    · rw [if_pos hfd'] at hget'
      obtain rfl := Outcome.done.inj hget'
      obtain ⟨hold, htouch⟩ := remove_mask_ne.mp hdue
      refine ⟨fun h => htouch h.2.2, ev, hfd' ▸ hget, hold, ?_, rfl⟩
      cases d <;> rfl
    · rw [if_neg hfd'] at hget'
      exact ⟨fun h => hfd' h.2.1, ev', hget', hdue, rfl, rfl⟩

theorem registered_snoc_if {r : Int} : registered (log ++ if r = 0 then [e] else []) fd d =
    if r = 0 then touch fd d (registered log fd d) e else registered log fd d := by
  split_ifs
  · exact registered_snoc
  · rw [List.append_nil]

theorem create_event_recorded {k : K} {r : Int} (hr : Recorded n loop log)
    (hc : Created b k loop fd event cb data loop' r) :
    Recorded n loop' (log ++ if r = 0 then [.created fd event cb] else []) := by
  obtain ⟨hsize, hlength, -⟩ := hc.frame
  refine ⟨hsize.trans hr.setsize, by rw [hlength]; exact hr.length, fun fd' ev' d hget' hdue => ?_⟩
  rw [registered_snoc_if]
  unfold touch
  rcases hc.entry hget' hdue with ⟨⟨hr0, hfd, htouch⟩, hslot, hdata⟩ | ⟨hother, ev, hget, hold, hslot, hdata⟩
  · rw [if_pos hr0]
    exact ⟨cb, data, hslot, hdata, if_pos ⟨hfd.symm, htouch⟩⟩
  · obtain ⟨cb', data', hslot', hdata', hreg⟩ := hr.entry fd' ev d hget hold
    have hsome : ∃ x, ev'.data = some x := hdata.elim (fun h => ⟨data', h.trans hdata'⟩) fun h => ⟨data, h⟩
    obtain ⟨x, hx⟩ := hsome
    refine ⟨cb', x, hslot.trans hslot', hx, ?_⟩
    split_ifs with hr0
    · exact (if_neg fun h => hother ⟨hr0, h.1.symm, h.2⟩).trans hreg
    · exact hreg

theorem delete_event_recorded {k : K} {r : Int} (hr : Recorded n loop log)
    (hd : Deleted b k loop fd event loop' r) :
    Recorded n loop' (log ++ if r = 0 then [.deleted fd event] else []) := by
  obtain ⟨hsize, hlength, -⟩ := hd.frame
  refine ⟨hsize.trans hr.setsize, by rw [hlength]; exact hr.length, fun fd' ev' d hget' hdue => ?_⟩
  obtain ⟨hother, ev, hget, hold, hslot, hdata⟩ := hd.entry hget' hdue
  obtain ⟨cb, data, hslot', hdata', hreg⟩ := hr.entry fd' ev d hget hold
  refine ⟨cb, data, hslot.trans hslot', hdata.trans hdata', ?_⟩
  rw [registered_snoc_if]
  unfold touch
  split_ifs with hr0
  · exact (if_neg fun h => hother ⟨hr0, h.1.symm, h.2⟩).trans hreg
  · exact hreg

/-! ## What a callback does -/

theorem Faithful.append (hf : Faithful log) (hchange : ∀ e ∈ log', e.isChange) : Faithful (log ++ log') := by
  induction log' generalizing log with
  | nil => rwa [List.append_nil]
  | cons e log' ih =>
    rw [List.append_cons]
    apply ih _ fun e he => hchange e (List.mem_cons_of_mem _ he)
    apply hf.snoc
    rintro fd d cb data rfl
    exact (hchange _ List.mem_cons_self).elim

theorem runAct_spec (hr : Recorded n loop log) (hdone : runAct b loop act = .done (loop', log')) :
    Recorded n loop' (log ++ log') ∧ ∀ e ∈ log', e.isChange := by
  have hlogged {r : Int} {change : Entry C D} (hchange : change.isChange) :
      ∀ e ∈ if r = 0 then [change] else [], e.isChange := by
    intro e he
    split_ifs at he
    · rw [List.mem_singleton.mp he]
      exact hchange
    · cases he
  unfold runAct at hdone
  cases act with
  | create k fd event cb data =>
    obtain ⟨⟨loop₁, r⟩, hcreate, hpure⟩ := Outcome.bind_eq_done.mp hdone
    obtain ⟨rfl, rfl⟩ := Prod.mk.inj (Outcome.done.inj hpure)
    exact ⟨create_event_recorded hr (create_event_done hcreate), hlogged trivial⟩
  | delete k fd event =>
    obtain ⟨⟨loop₁, r⟩, hdelete, hpure⟩ := Outcome.bind_eq_done.mp hdone
    obtain ⟨rfl, rfl⟩ := Prod.mk.inj (Outcome.done.inj hpure)
    exact ⟨delete_event_recorded hr (delete_event_done hdelete), hlogged trivial⟩

theorem runCallback_spec (hr : Recorded n loop log) (hdone : runCallback b loop acts = .done (loop', log')) :
    Recorded n loop' (log ++ log') ∧ ∀ e ∈ log', e.isChange := by
  induction acts generalizing loop log log' with
  | nil =>
    obtain ⟨rfl, rfl⟩ := Prod.mk.inj (Outcome.done.inj hdone)
    rw [List.append_nil]
    exact ⟨hr, by simp⟩
  | cons act acts ih =>
    unfold runCallback at hdone
    obtain ⟨⟨loop₁, log₁⟩, hact, hdone⟩ := Outcome.bind_eq_done.mp hdone
    obtain ⟨⟨loop₂, log₂⟩, hacts, hpure⟩ := Outcome.bind_eq_done.mp hdone
    obtain ⟨rfl, rfl⟩ := Prod.mk.inj (Outcome.done.inj hpure)
    obtain ⟨hr₁, hchange₁⟩ := runAct_spec hr hact
    obtain ⟨hr₂, hchange₂⟩ := ih hr₁ hacts
    rw [← List.append_assoc]
    refine ⟨hr₂, ?_⟩
    intro e he
    exact (List.mem_append.mp he).elim (hchange₁ e) (hchange₂ e)

/-! ## One batch -/

/-- The latest poll reported `actives`, and since then only `served` directions were called. -/
def Serving (log : List (Entry C D)) (actives : List ev_active) (served : Int → Direction → Prop) : Prop :=
  ∃ before during, log = before ++ .reported actives :: during ∧ (∀ e ∈ during, ¬ e.isReport) ∧
    ∀ fd d cb data, .invoked fd d cb data ∈ during → served fd d

theorem Serving.mono {served' : Int → Direction → Prop} (hs : Serving log actives served)
    (hsub : ∀ fd d, served fd d → served' fd d) : Serving log actives served' := by
  obtain ⟨before, during, rfl, hreport, hserved⟩ := hs
  exact ⟨before, during, rfl, hreport, fun fd d cb data hin => hsub fd d (hserved fd d cb data hin)⟩

theorem Serving.append (hs : Serving log actives served) (hchange : ∀ e ∈ log', e.isChange) :
    Serving (log ++ log') actives served := by
  obtain ⟨before, during, rfl, hreport, hserved⟩ := hs
  refine ⟨before, during ++ log', by simp, ?_, ?_⟩
  · intro e he
    rcases List.mem_append.mp he with he | he
    · exact hreport e he
    · have := hchange e he
      cases e <;> simp_all [Entry.isChange, Entry.isReport]
  · intro fd d cb data hin
    rcases List.mem_append.mp hin with hin | hin
    · exact hserved fd d cb data hin
    · exact (hchange _ hin).elim

theorem Serving.invoked (hs : Serving log actives served) :
    Serving (log ++ [.invoked fd d cb data]) actives fun fd' d' => served fd' d' ∨ fd' = fd ∧ d' = d := by
  obtain ⟨before, during, rfl, hreport, hserved⟩ := hs
  refine ⟨before, during ++ [.invoked fd d cb data], by simp, ?_, ?_⟩
  · intro e he
    rcases List.mem_append.mp he with he | he
    · exact hreport e he
    · rw [List.mem_singleton.mp he]
      exact id
  · intro fd' d' cb' data' hin
    rcases List.mem_append.mp hin with hin | hin
    · exact Or.inl (hserved fd' d' cb' data' hin)
    · injection List.mem_singleton.mp hin with hfd hd
      exact Or.inr ⟨hfd, hd⟩

theorem Serving.due (hs : Serving log actives served) (hin : active ∈ actives)
    (hreported : active.event &&& d.mask ≠ 0) (hnew : ¬ served active.fd d)
    (hreg : registered log active.fd d = some cb) : Due log active.fd d cb := by
  obtain ⟨before, during, rfl, hreport, hserved⟩ := hs
  refine ⟨hreg, before, actives, during, rfl, hreport, ⟨active, hin, rfl, hreported⟩, ?_⟩
  intro cb' data' hin'
  exact hnew (hserved _ _ _ _ hin')

theorem invoke_spec (hr : Recorded n loop log) (hf : Faithful log) (hs : Serving log actives served)
    (hin : active ∈ actives) (hnew : ¬ served active.fd d)
    (hdone : invoke b loop active d acts = .done (loop', log')) :
    Recorded n loop' (log ++ log') ∧ Faithful (log ++ log') ∧
      Serving (log ++ log') actives fun fd' d' => served fd' d' ∨ fd' = active.fd ∧ d' = d := by
  unfold invoke at hdone
  obtain ⟨ev, hget, hdone⟩ := Outcome.bind_eq_done.mp hdone
  by_cases hcall : ev.event &&& active.event &&& d.mask ≠ 0
  · rw [if_pos hcall] at hdone
    obtain ⟨hev, hactive⟩ := both_mask_ne.mp hcall
    obtain ⟨cb, data, hslot, hdata, hreg⟩ := hr.entry _ _ _ hget hev
    simp only [hslot, hdata, Outcome.ofOption_some, Outcome.done_bind] at hdone
    obtain ⟨⟨loop₁, log₁⟩, hrun, hpure⟩ := Outcome.bind_eq_done.mp hdone
    obtain ⟨rfl, rfl⟩ := Prod.mk.inj (Outcome.done.inj hpure)
    have hr₁ : Recorded n loop (log ++ [.invoked active.fd d cb data]) :=
      hr.congr rfl rfl fun _ _ => registered_snoc
    obtain ⟨hr₂, hchange⟩ := runCallback_spec hr₁ hrun
    have hf₁ : Faithful (log ++ [.invoked active.fd d cb data]) := by
      apply hf.snoc
      intro fd d' cb' data' heq
      injection heq with hfd hd hcb
      subst hfd hd hcb
      exact hs.due hin hactive hnew hreg
    rw [List.append_cons]
    exact ⟨hr₂, hf₁.append hchange, hs.invoked.append hchange⟩
  · rw [if_neg hcall] at hdone
    obtain ⟨rfl, rfl⟩ := Prod.mk.inj (Outcome.done.inj hdone)
    rw [List.append_nil]
    exact ⟨hr, hf, hs.mono fun _ _ => Or.inl⟩

theorem dispatch_spec {behave : Nat → Direction → List (Act C D K)} {j : Nat} {done rest : List ev_active}
    (hr : Recorded n loop log) (hf : Faithful log)
    (hs : Serving log (done ++ rest) fun fd _ => fd ∈ done.map ev_active.fd)
    (hdistinct : ((done ++ rest).map ev_active.fd).Nodup)
    (hdone : dispatch b behave loop j rest = .done (loop', log')) :
    Recorded n loop' (log ++ log') ∧ Faithful (log ++ log') := by
  induction rest generalizing loop log log' j done with
  | nil =>
    obtain ⟨rfl, rfl⟩ := Prod.mk.inj (Outcome.done.inj hdone)
    rw [List.append_nil]
    exact ⟨hr, hf⟩
  | cons active rest ih =>
    unfold dispatch at hdone
    obtain ⟨⟨loop₁, log₁⟩, hread, hdone⟩ := Outcome.bind_eq_done.mp hdone
    obtain ⟨⟨loop₂, log₂⟩, hwrite, hdone⟩ := Outcome.bind_eq_done.mp hdone
    obtain ⟨⟨loop₃, log₃⟩, hrest, hpure⟩ := Outcome.bind_eq_done.mp hdone
    obtain ⟨rfl, rfl⟩ := Prod.mk.inj (Outcome.done.inj hpure)
    have hin : active ∈ done ++ active :: rest := by simp
    have hnew : active.fd ∉ done.map ev_active.fd := by
      rw [List.map_append, List.map_cons, List.nodup_middle, List.nodup_cons, List.mem_append] at hdistinct
      exact fun h => hdistinct.1 (Or.inl h)
    obtain ⟨hr₁, hf₁, hs₁⟩ := invoke_spec hr hf hs hin hnew hread
    have hnew₁ : ¬ (active.fd ∈ done.map ev_active.fd ∨ active.fd = active.fd ∧ Direction.write = .read) := by
      rintro (h | ⟨-, h⟩)
      · exact hnew h
      · cases h
    obtain ⟨hr₂, hf₂, hs₂⟩ := invoke_spec hr₁ hf₁ hs₁ hin hnew₁ hwrite
    have hnext : done ++ active :: rest = (done ++ [active]) ++ rest := by simp
    rw [hnext] at hs₂ hdistinct
    have hs₃ : Serving (log ++ log₁ ++ log₂) (done ++ [active] ++ rest)
        fun fd _ => fd ∈ (done ++ [active]).map ev_active.fd := by
      apply hs₂.mono
      intro fd d hserved
      rw [List.map_append, List.map_singleton, List.mem_append, List.mem_singleton]
      rcases hserved with (h | h) | h
      · exact Or.inl h
      · exact Or.inr h.1
      · exact Or.inr h.1
    obtain ⟨hr₃, hf₃⟩ := ih hr₂ hf₂ hs₃ hdistinct hrest
    rw [← List.append_assoc, ← List.append_assoc]
    exact ⟨hr₃, hf₃⟩

/-! ## No callback is missing -/

/-- `delete_event` does not look whether `fd` is negative. -/
def Act.Valid : Act C D K → Prop
  | .create .. => True
  | .delete _ fd _ => 0 ≤ fd

theorem runAct_returns (hserves : b.serves n) (hr : Recorded n loop log) (hvalid : act.Valid) :
    ∃ r, runAct b loop act = .done r := by
  have hserves' : b.serves loop.setsize := by rwa [hr.setsize]
  have hsize : loop.events.length = loop.setsize := hr.length.trans hr.setsize.symm
  unfold runAct
  cases act with
  | create k fd event cb data =>
    obtain ⟨loop', r, hcreate⟩ := create_event_returns hserves' hsize k event cb data
    exact ⟨_, (congrArg (· >>= _) hcreate).trans rfl⟩
  | delete k fd event =>
    obtain ⟨loop', r, hdelete⟩ := delete_event_returns hserves' hsize hvalid k event
    exact ⟨_, (congrArg (· >>= _) hdelete).trans rfl⟩

theorem runCallback_returns (hserves : b.serves n) (hr : Recorded n loop log)
    (hvalid : ∀ act ∈ acts, act.Valid) : ∃ r, runCallback b loop acts = .done r := by
  induction acts generalizing loop log with
  | nil => exact ⟨_, rfl⟩
  | cons act acts ih =>
    obtain ⟨⟨loop₁, log₁⟩, hact⟩ := runAct_returns hserves hr (hvalid act List.mem_cons_self)
    obtain ⟨hr₁, -⟩ := runAct_spec hr hact
    obtain ⟨r, hacts⟩ := ih hr₁ fun act hin => hvalid act (List.mem_cons_of_mem _ hin)
    unfold runCallback
    rw [hact, Outcome.done_bind]
    exact ⟨_, (congrArg (· >>= _) hacts).trans rfl⟩

theorem invoke_returns (hserves : b.serves n) (hr : Recorded n loop log)
    (hfd : 0 ≤ active.fd ∧ active.fd < n) (hvalid : ∀ act ∈ acts, act.Valid) :
    ∃ loop' log', invoke b loop active d acts = .done (loop', log') ∧ Recorded n loop' (log ++ log') := by
  obtain ⟨ev, hget⟩ := getEvent_of_lt loop hfd.1 (by rw [hr.length]; exact hfd.2)
  unfold invoke
  rw [hget, Outcome.done_bind]
  by_cases hcall : ev.event &&& active.event &&& d.mask ≠ 0
  · obtain ⟨cb, data, hslot, hdata, -⟩ := hr.entry _ _ _ hget (both_mask_ne.mp hcall).1
    have hr₁ : Recorded n loop (log ++ [.invoked active.fd d cb data]) :=
      hr.congr rfl rfl fun _ _ => registered_snoc
    obtain ⟨⟨loop', log'⟩, hrun⟩ := runCallback_returns hserves hr₁ hvalid
    obtain ⟨hr₂, -⟩ := runCallback_spec hr₁ hrun
    rw [if_pos hcall]
    simp only [hslot, hdata, Outcome.ofOption_some, Outcome.done_bind]
    refine ⟨loop', _, (congrArg (· >>= _) hrun).trans rfl, ?_⟩
    rw [List.append_cons]
    exact hr₂
  · rw [if_neg hcall]
    exact ⟨loop, [], rfl, by rwa [List.append_nil]⟩

theorem dispatch_returns {behave : Nat → Direction → List (Act C D K)} {j : Nat}
    (hserves : b.serves n) (hr : Recorded n loop log)
    (hfds : ∀ active ∈ actives, 0 ≤ active.fd ∧ active.fd < n)
    (hvalid : ∀ j d, ∀ act ∈ behave j d, act.Valid) : ∃ r, dispatch b behave loop j actives = .done r := by
  induction actives generalizing loop log j with
  | nil => exact ⟨_, rfl⟩
  | cons active actives ih =>
    have hfd := hfds active List.mem_cons_self
    obtain ⟨loop₁, log₁, hread, hr₁⟩ := invoke_returns hserves hr hfd (hvalid j .read)
    obtain ⟨loop₂, log₂, hwrite, hr₂⟩ := invoke_returns hserves hr₁ hfd (hvalid j .write)
    obtain ⟨r, hrest⟩ := ih hr₂ fun active hin => hfds active (List.mem_cons_of_mem _ hin)
    unfold dispatch
    rw [hread, Outcome.done_bind]
    dsimp only
    rw [hwrite, Outcome.done_bind]
    exact ⟨_, (congrArg (· >>= _) hrest).trans rfl⟩

/-! ## Whole runs -/

/-- A call from outside, or one half of a call of `process_events`. -/
inductive Call (C D K R : Type) where
  | act (a : Act C D K)
  | process (clock : Int) (r : R) (behave : Nat → Direction → List (Act C D K))
  | timers (turns : List (Timer.Turn C D))

/-- A poll does not report a descriptor twice. -/
def Entry.Distinct : Entry C D → Prop
  | .reported actives => (actives.map ev_active.fd).Nodup
  | _ => True

/-- A loop and its history, before and after a call that returned. -/
def Steps (b : Poller C D P K R) (s : event_loop C D P × List (Entry C D)) (call : Call C D K R)
    (s' : event_loop C D P × List (Entry C D)) : Prop :=
  match call with
  | .act a => ∃ log, runAct b s.1 a = .done (s'.1, log) ∧ s'.2 = s.2 ++ log
  | .process clock r behave => ∃ processed log, processActives b clock r behave s.1 = .done (s'.1, processed, log) ∧
    (∀ e ∈ log, e.Distinct) ∧ s'.2 = s.2 ++ log
  | .timers turns => ∃ timers processed fired,
    Timer.process_time_events turns s.1.timers = .done (timers, processed, fired) ∧ s' = ({ s.1 with timers }, s.2)

theorem processActives_spec {clock : Int} {r : R} {behave : Nat → Direction → List (Act C D K)}
    {processed : Int} (hr : Recorded n loop log) (hf : Faithful log)
    (hdone : processActives b clock r behave loop = .done (loop', processed, log'))
    (hdistinct : ∀ e ∈ log', e.Distinct) : Recorded n loop' (log ++ log') ∧ Faithful (log ++ log') := by
  obtain ⟨timeout, -, hdone⟩ := Outcome.bind_eq_done.mp hdone
  obtain ⟨⟨poller, actives⟩, hpoll, hdone⟩ := Outcome.bind_eq_done.mp hdone
  obtain ⟨⟨loop₁, log₁⟩, hdispatch, hpure⟩ := Outcome.bind_eq_done.mp hdone
  obtain ⟨rfl, hrest⟩ := Prod.mk.inj (Outcome.done.inj hpure)
  obtain ⟨-, rfl⟩ := Prod.mk.inj hrest
  have hr₁ : Recorded n { loop with poller } (log ++ [.reported actives]) :=
    hr.congr rfl rfl fun _ _ => registered_snoc
  have hf₁ : Faithful (log ++ [.reported actives]) := by
    apply hf.snoc
    rintro fd d cb data ⟨⟩
  have hs : Serving (log ++ [.reported actives]) ([] ++ actives)
      fun fd _ => fd ∈ ([] : List ev_active).map ev_active.fd :=
    ⟨log, [], rfl, by simp, by simp⟩
  rw [List.append_cons]
  exact dispatch_spec hr₁ hf₁ hs (hdistinct (.reported actives) List.mem_cons_self) hdispatch

theorem Steps.kept {s s' : event_loop C D P × List (Entry C D)} {call : Call C D K R}
    (hr : Recorded n s.1 s.2) (hf : Faithful s.2) (hstep : Steps b s call s') :
    Recorded n s'.1 s'.2 ∧ Faithful s'.2 := by
  cases call with
  | act a =>
    obtain ⟨log, hact, hlog⟩ := hstep
    obtain ⟨hr', hchange⟩ := runAct_spec hr hact
    rw [hlog]
    exact ⟨hr', hf.append hchange⟩
  | process clock r behave =>
    obtain ⟨processed, log, hactives, hdistinct, hlog⟩ := hstep
    rw [hlog]
    exact processActives_spec hr hf hactives hdistinct
  | timers turns =>
    obtain ⟨timers, processed, fired, -, rfl⟩ := hstep
    exact ⟨hr.congr rfl rfl fun _ _ => rfl, hf⟩

theorem new_recorded {malloc : Bool} {poller : Option P} {timers : Option (Timer.timer_heap C D)}
    (hnew : event_loop_create malloc poller timers n = some loop) : Recorded n loop [] := by
  obtain ⟨hle, -, hsize, -, hevents⟩ := event_loop_create_some hnew
  refine ⟨hsize, ?_, ?_⟩
  · rw [hevents, List.length_replicate]
    omega
  · intro fd ev d hget hev
    rw [new_event hevents hget] at hev
    exact absurd BitVec.zero_and hev

/-- In every run each callback that was called is the one registered last for its direction, was reported by the
poll, and was called once in its batch. None is missing: a further batch for descriptors of the loop is
dispatched to its end. -/
theorem callbacks_registered_of_run {malloc : Bool} {poller : Option P} {timers : Option (Timer.timer_heap C D)}
    {maxevents : Int} {loop₀ : event_loop C D P} {calls : List (Call C D K R)}
    (hnew : event_loop_create malloc poller timers maxevents = some loop₀) (hserves : b.serves maxevents)
    (hrun : Run (Steps b) (loop₀, []) calls (loop, log)) :
    Faithful log ∧ ∀ actives behave, (∀ active ∈ actives, 0 ≤ active.fd ∧ active.fd < maxevents) →
      (∀ j d, ∀ act ∈ behave j d, act.Valid) → ∃ r, dispatch b behave loop 0 actives = .done r := by
  have hkept : Recorded maxevents loop log ∧ Faithful log := by
    apply hrun.invariant (P := fun s => Recorded maxevents s.1 s.2 ∧ Faithful s.2)
    · exact fun s call s' h hstep => hstep.kept h.1 h.2
    · exact ⟨new_recorded hnew, by simp [Faithful]⟩
  refine ⟨hkept.2, ?_⟩
  intro actives behave hfds hvalid
  exact dispatch_returns hserves hkept.1 hfds hvalid

instance : (e : Entry C D) → Decidable e.Distinct
  | .reported actives => inferInstanceAs (Decidable (actives.map ev_active.fd).Nodup)
  | .created .. | .deleted .. | .invoked .. => .isTrue trivial

/-- A step found by computing it. -/
def steps? (b : Poller C D P K R) (s : event_loop C D P × List (Entry C D)) :
    Call C D K R → Option (event_loop C D P × List (Entry C D))
  | .act a =>
    match runAct b s.1 a with
    | .done (loop, log) => some (loop, s.2 ++ log)
    | _ => none
  | .process clock r behave =>
    match processActives b clock r behave s.1 with
    | .done (loop, _, log) => if ∀ e ∈ log, e.Distinct then some (loop, s.2 ++ log) else none
    | _ => none
  | .timers turns =>
    match Timer.process_time_events turns s.1.timers with
    | .done (timers, _) => some ({ s.1 with timers }, s.2)
    | _ => none

theorem steps_of_steps? {s s' : event_loop C D P × List (Entry C D)} {call : Call C D K R}
    (h : steps? b s call = some s') : Steps b s call s' := by
  unfold steps? at h
  cases call with
  | act a =>
    dsimp only at h
    split at h
    · next hact =>
      obtain rfl := Option.some.inj h
      exact ⟨_, hact, rfl⟩
    · cases h
  | process clock r behave =>
    dsimp only at h
    split at h
    · next hactives =>
      split_ifs at h with hdistinct
      obtain rfl := Option.some.inj h
      exact ⟨_, _, hactives, hdistinct, rfl⟩
    · cases h
  | timers turns =>
    dsimp only at h
    split at h
    · next htimers =>
      obtain rfl := Option.some.inj h
      exact ⟨_, _, _, htimers, rfl⟩
    · cases h

/-- A loop with four entries and no timer, for runs on fixed input. -/
def newLoop {P : Type} (poller : P) : event_loop Nat Nat P where
  maxfd := -1
  setsize := 4
  events := List.replicate 4 { event := EV_NONE, data := none, read := none, write := none }
  poller := poller
  timers := Timer.newHeap

/-- The callback for the descriptor reported first deletes the read event of the other one. -/
def sampleCalls : List (Call Nat Nat Bool epoll_wait) :=
  [.act (.create true 1 EV_RDABLE 7 0), .act (.create true 2 (EV_RDABLE ||| EV_WRABLE) 8 0),
    .process 0 (fun _ _ _ => some [⟨1#32, 1⟩, ⟨5#32, 2⟩]) fun j d =>
      if j = 0 ∧ d = .read then [.delete true 2 EV_RDABLE] else []]

def sampleState : event_loop Nat Nat epoll × List (Entry Nat Nat) :=
  (sampleCalls.foldlM (steps? epoll.build) (newLoop ⟨fun _ => none, []⟩, [])).get (by decide)

theorem callbacks_registered_sample :
    sampleState.2 = [.created 1 EV_RDABLE 7, .created 2 (EV_RDABLE ||| EV_WRABLE) 8,
      .reported [⟨1, EV_RDABLE⟩, ⟨2, EV_RDABLE ||| EV_WRABLE⟩], .invoked 1 .read 7 0, .deleted 2 EV_RDABLE,
      .invoked 2 .write 8 0] ∧
    Faithful sampleState.2 ∧ ∀ actives behave, (∀ active ∈ actives, 0 ≤ active.fd ∧ active.fd < 4) →
      (∀ j d, ∀ act ∈ behave j d, act.Valid) →
        ∃ r, dispatch epoll.build behave sampleState.1 0 actives = .done r := by
  have hnew : event_loop_create true (some ⟨fun _ => none, []⟩) (some Timer.newHeap) 4 =
      some (newLoop (⟨fun _ => none, []⟩ : epoll)) := rfl
  have hstate : sampleCalls.foldlM (steps? epoll.build) (newLoop ⟨fun _ => none, []⟩, []) = some sampleState :=
    (Option.some_get _).symm
  have hrun : Run (Steps epoll.build) (newLoop ⟨fun _ => none, []⟩, []) sampleCalls sampleState :=
    Run.of_foldlM (fun _ _ _ => steps_of_steps?) hstate
  exact ⟨rfl, callbacks_registered_of_run hnew trivial hrun⟩

end Akio.Event
