import Akio.Timer.Order
import Akio.Timer.Payload

/-!
# The timers as a plan

A plan says for each timer when it is due and what it calls. The heap, its free list and the order of its slots
implement it.
-/

namespace Akio.Timer

variable {C D : Type} {heap heap₀ heap' : timer_heap C D} {v v' : Nat → Nat} {n n' t te : Nat} {f f' l l' : List Nat}
  {act : Act C D} {acts : List (Act C D)} {created deleted : List Nat} {w : Int}

abbrev Plan (C D : Type) := Nat → Option (Int × C × D)

namespace Plan

/-- A call in a callback or from outside. Any timer that is not planned may be handed out, and a timer that is not
planned is not deleted. -/
inductive Acts (m : Plan C D) : Act C D → List Nat → List Nat → Plan C D → Prop where
  | created {malloc realloc : Bool} {clock msec : Int} {cb : C} {data : D} {t : Nat} (hfree : m t = none)
      (hmsec : msec > EV_TIMER_END) : Acts m (.create malloc realloc clock msec cb data) [t] []
        (Function.update m t (some (clock + msec, cb, data)))
  | refused {malloc realloc : Bool} {clock msec : Int} {cb : C} {data : D}
      (hmemory : malloc = false ∨ realloc = false) : Acts m (.create malloc realloc clock msec cb data) [] [] m
  | deleted {t : Nat} {x : Int × C × D} (hplanned : m t = some x) :
      Acts m (.delete t) [] [t] (Function.update m t none)
  | absent {t : Nat} (hfree : m t = none) : Acts m (.delete t) [] [] m

/-- The calls of a callback. -/
inductive Runs : Plan C D → List (Act C D) → List Nat → List Nat → Plan C D → Prop where
  | nil {m : Plan C D} : Runs m [] [] [] m
  | cons {m m₁ m' : Plan C D} {act : Act C D} {acts : List (Act C D)} {created deleted created' deleted' : List Nat}
      (hact : Acts m act created deleted m₁) (hrest : Runs m₁ acts created' deleted' m') :
      Runs m (act :: acts) (created ++ created') (deleted ++ deleted') m'

/-- The timer that is due first is called. Afterwards it is put off, or taken out of the plan. -/
structure Fires (m : Plan C D) (x : Turn C D × Fired) (m' : Plan C D) : Prop where
  first : ∃ a, m x.2.timer = some a ∧ x.2.when_msec = a.1 ∧ ∀ t b, m t = some b → a.1 ≤ b.1
  due : x.2.when_msec ≤ x.1.now_msec
  after : ∃ m₁, Runs m x.1.acts x.2.created x.2.deleted m₁ ∧
    (x.1.retval ≤ EV_TIMER_END ∧ m' = Function.update m₁ x.2.timer none ∨
      x.1.retval > EV_TIMER_END ∧ ∃ a, m₁ x.2.timer = some a ∧
        m' = Function.update m₁ x.2.timer (some (x.1.later + x.1.retval, a.2)))

/-- Nothing is planned, or nothing is due at the next reading of the clock. -/
def Stops (m : Plan C D) (rest : List (Turn C D)) : Prop :=
  (∀ t, m t = none) ∨ ∃ turn, rest.head? = some turn ∧ ∀ t a, m t = some a → turn.now_msec < a.1

def Step (m : Plan C D) : Call C D → Plan C D → Prop
  | .act a, m' => ∃ created deleted, Acts m a created deleted m'
  | .process turns, m' => ∃ fires rest, turns = fires.map Prod.fst ++ rest ∧ Run Fires m fires m' ∧ Stops m' rest

end Plan

/-! ## The plan of a heap -/

def plan (heap : timer_heap C D) : Plan C D := fun t =>
  if some t ∈ (List.range heap.now.toNat).map heap.tes then entry heap.timers t else none

theorem Good.plan_eq (hg : Good heap v n f l) (t : Nat) [Decidable (Member v n t)] :
    plan heap t = if Member v n t then entry heap.timers t else none := by
  have hnow : heap.now.toNat = n := by
    have := hg.heapOf.now
    omega
  have hiff : some t ∈ (List.range heap.now.toNat).map heap.tes ↔ Member v n t := by
    rw [← hg.scheduled_iff, List.mem_map]
    unfold Scheduled
    simp only [List.mem_range, Int.lt_toNat]
  unfold plan
  simp only [hiff]

theorem Good.plan_member (hg : Good heap v n f l) (hm : Member v n t) : plan heap t = entry heap.timers t := by
  classical
  rw [hg.plan_eq, if_pos hm]

theorem Good.plan_out (hg : Good heap v n f l) (hm : ¬ Member v n t) : plan heap t = none := by
  classical
  rw [hg.plan_eq, if_neg hm]

theorem Good.planned (hg : Good heap v n f l) {a : Int × C × D} (h : plan heap t = some a) :
    Member v n t ∧ due heap.timers t = a.1 := by
  by_cases hm : Member v n t
  · obtain ⟨b, hb⟩ := Store.live_iff.mp (hg.heapOf.live hm)
    rw [hg.plan_member hm, entry_of_cell hb] at h
    obtain rfl := Option.some.inj h
    exact ⟨hm, Store.field_of_cell hb⟩
  · rw [hg.plan_out hm] at h
    cases h

theorem Good.exists_planned (hg : Good heap v n f l) (hm : Member v n t) :
    ∃ a, plan heap t = some a ∧ due heap.timers t = a.1 := by
  obtain ⟨b, hb⟩ := Store.live_iff.mp (hg.heapOf.live hm)
  exact ⟨_, (hg.plan_member hm).trans (entry_of_cell hb), Store.field_of_cell hb⟩

theorem Good.plan_update (hg : Good heap v n f l) (hg' : Good heap' v' n' f' l')
    (hmem : ∀ q, q ≠ t → (Member v' n' q ↔ Member v n q))
    (hentry : ∀ q, q ≠ t → Member v n q → entry heap'.timers q = entry heap.timers q) :
    plan heap' = Function.update (plan heap) t (plan heap' t) := by
  funext q
  by_cases hq : q = t
  · rw [hq, Function.update_self]
  · rw [Function.update_of_ne hq]
    by_cases hm : Member v n q
    · rw [hg'.plan_member ((hmem q hq).mpr hm), hg.plan_member hm, hentry q hq hm]
    · rw [hg'.plan_out (mt (hmem q hq).mp hm), hg.plan_out hm]

/-! ## One call -/

theorem delete_timer_plan {p : Nat} {r : Int} (hg : Good heap v n f l)
    (hdelete : delete_timer heap (some p) = .done (heap', r)) : plan heap' = Function.update (plan heap) p none := by
  rcases delete_timer_spec hg (live_of_delete hdelete) with ⟨hf, hkept⟩ | ⟨hm, _, v', f', hremoved, hg', hmem, -⟩
  · cases hdelete.symm.trans hkept
    exact (Function.update_eq_self_iff.mpr (hg.plan_out (hg.out p hf)).symm).symm
  · cases hdelete.symm.trans hremoved
    have hupdate := hg.plan_update hg' (t := p) (fun q hq => by rw [hmem]; tauto)
      fun q hq _ => delete_timer_entry hdelete hq
    rwa [hg'.plan_out (by rw [hmem]; tauto)] at hupdate

theorem runAct_plan (hg : Good heap v n f l) (hdone : runAct heap act = .done (heap', created, deleted)) :
    Plan.Acts (plan heap) act created deleted (plan heap') := by
  have hproper := Proper.of_done hdone
  unfold runAct at hdone
  cases act with
  | create malloc realloc clock msec cb data =>
    obtain ⟨⟨heap₁, te⟩, hcreate, hpure⟩ := Outcome.bind_eq_done.mp hdone
    cases hpure
    obtain ⟨_, _, v', n', f', l', hcreate', hg', -, -, hnew, hmem, -⟩ :=
      create_timer_spec malloc realloc clock hg hproper cb data
    cases hcreate.symm.trans hcreate'
    obtain ⟨hfresh, hentry⟩ := create_timer_entry hg hcreate
    cases te with
    | none =>
      have hsame : plan heap' = plan heap := by
        funext q
        by_cases hm : Member v n q
        · rw [hg'.plan_member ((hmem q).mpr (Or.inr hm)), hg.plan_member hm, hentry q hm]
        · rw [hg'.plan_out (by rw [hmem]; simpa using hm), hg.plan_out hm]
      rw [hsame]
      exact .refused (create_timer_refused hg hcreate)
    | some t =>
      have hupdate := hg.plan_update hg' (t := t) (fun q hq => by rw [hmem, Option.some_inj]; tauto)
        fun q _ hm => hentry q hm
      rw [hg'.plan_member ((hmem t).mpr (Or.inl rfl)), hfresh t rfl] at hupdate
      rw [hupdate]
      exact .created (hg.plan_out (hnew t rfl)) hproper
  | delete p =>
    obtain ⟨⟨heap₁, r⟩, hdelete, hpure⟩ := Outcome.bind_eq_done.mp hdone
    cases hpure
    rcases delete_timer_spec hg hproper with ⟨hf, hkept⟩ | ⟨hm, _, v', f', hremoved, -⟩
    · cases hdelete.symm.trans hkept
      exact .absent (hg.plan_out (hg.out p hf))
    · cases hdelete.symm.trans hremoved
      obtain ⟨a, ha, -⟩ := hg.exists_planned hm
      rw [delete_timer_plan hg hdelete]
      exact .deleted ha

theorem runCallback_plan (hg : Good heap v n f l)
    (hrun : runCallback heap acts = .done (heap', created, deleted)) :
    Plan.Runs (plan heap) acts created deleted (plan heap') := by
  induction acts generalizing heap v n f l created deleted with
  | nil =>
    unfold runCallback at hrun
    cases hrun
    exact .nil
  | cons act acts ih =>
    unfold runCallback at hrun
    obtain ⟨⟨heap₁, created₁, deleted₁⟩, hact, hrest⟩ := Outcome.bind_eq_done.mp hrun
    obtain ⟨⟨heap₂, created₂, deleted₂⟩, hrun₂, hpure⟩ := Outcome.bind_eq_done.mp hrest
    cases hpure
    obtain ⟨_, _, _, v₁, n₁, f₁, l₁, hdone, hg₁, -⟩ := runAct_spec hg (Proper.of_done hact)
    cases hact.symm.trans hdone
    exact .cons (runAct_plan hg hact) (ih hg₁ hrun₂)

/-! ## The loop -/

theorem entry_retime (timers : Store (timer C D)) (p : Nat) (w : Int) :
    entry (retime timers p w) p = (entry timers p).map fun a => (w, a.2) := by
  unfold entry
  rw [Store.adjust_cell_self, Option.map_map, Option.map_map]
  rfl

theorem rearm_plan {p : Nat} {timers : Store (timer C D)} {r : Int} (hg : Good heap v n f l)
    (hmodify : heap.timers.modify p (fun n => { n with when_msec := w }) = .done timers)
    (hadjust : heap_adjust { heap with timers } (some p) = .done (heap', r)) :
    ∃ a, plan heap p = some a ∧ plan heap' = Function.update (plan heap) p (some (w, a.2)) := by
  have hlive := Store.live_of_modify hmodify
  rw [Store.modify_live hlive] at hmodify
  cases hmodify
  rcases (hg.live p).mp hlive with hm | hf
  · obtain ⟨a, ha, -⟩ := hg.exists_planned hm
    obtain ⟨_, v', hadjust', hg', hmem, -⟩ := hg.rearm hm w
    cases hadjust.symm.trans hadjust'
    have hentry : entry heap'.timers = entry (retime heap.timers p w) := heap_adjust_entry hadjust
    have hupdate := hg.plan_update hg' (t := p) (fun q _ => hmem q) fun q hq _ => by
      rw [hentry]
      exact congrArg (Option.map _) (Store.adjust_cell_of_ne hq)
    rw [hg'.plan_member ((hmem p).mpr hm), hentry, entry_retime, ← hg.plan_member hm, ha] at hupdate
    exact ⟨a, ha, hupdate⟩
  · have hnow : 0 ≤ heap.now := by
      rw [hg.heapOf.now]
      omega
    have hidx : idx (retime heap.timers p w) p = -1 := (congrFun idx_retime p).trans (hg.freed p hf)
    have hout : heap_adjust { heap with timers := retime heap.timers p w } (some p) = .fault :=
      heap_adjust_out hnow (Store.adjust_live.mpr hlive) hidx
    cases hadjust.symm.trans hout

theorem fire_plan {turn : Turn C D} {fired : Fired} (hg : Good heap v n f l)
    (hfire : fire heap te turn = .done (heap', fired)) :
    fired.timer = te ∧ fired.when_msec = due heap.timers te ∧
      ∃ m₁, Plan.Runs (plan heap) turn.acts fired.created fired.deleted m₁ ∧
        (turn.retval ≤ EV_TIMER_END ∧ plan heap' = Function.update m₁ te none ∨
          turn.retval > EV_TIMER_END ∧ ∃ a, m₁ te = some a ∧
            plan heap' = Function.update m₁ te (some (turn.later + turn.retval, a.2))) := by
  unfold fire at hfire
  obtain ⟨b, hread, hfire⟩ := Outcome.bind_eq_done.mp hfire
  obtain ⟨q, hq, hcell⟩ := Store.read_eq_done.mp hread
  obtain rfl := Option.some.inj hq
  have hwhen : due heap.timers te = b.when_msec := Store.field_of_cell hcell
  obtain ⟨⟨heap₁, created, deleted⟩, hrun, hfire⟩ := Outcome.bind_eq_done.mp hfire
  obtain ⟨v₁, n₁, f₁, l₁, hg₁, -⟩ := runCallback_spec hg hrun
  have hruns := runCallback_plan hg hrun
  dsimp only at hfire
  split_ifs at hfire with hstop
  · obtain ⟨⟨heap₂, r⟩, hdelete, hpure⟩ := Outcome.bind_eq_done.mp hfire
    obtain ⟨rfl, rfl⟩ := Prod.mk.inj (Outcome.done.inj hpure)
    exact ⟨rfl, hwhen.symm, plan heap₁, hruns, Or.inl ⟨hstop, delete_timer_plan hg₁ hdelete⟩⟩
  · obtain ⟨timers, hmodify, hfire⟩ := Outcome.bind_eq_done.mp hfire
    obtain ⟨⟨heap₂, r⟩, hadjust, hpure⟩ := Outcome.bind_eq_done.mp hfire
    obtain ⟨rfl, rfl⟩ := Prod.mk.inj (Outcome.done.inj hpure)
    exact ⟨rfl, hwhen.symm, plan heap₁, hruns, Or.inr ⟨not_le.mp hstop, rearm_plan hg₁ hmodify hadjust⟩⟩

theorem Fires.step {x : Firing C D} (hg : Good heap v n f l) (hx : Fires heap x heap') :
    Plan.Fires (plan heap) (x.turn, x.fired) (plan heap') := by
  obtain ⟨te, htop, hdue, hfire, -⟩ := hx
  have hm : n ≠ 0 ∧ v 0 = te := by
    rw [heap_top_spec hg.heapOf] at htop
    simpa using htop
  obtain ⟨hn, hzero⟩ := hm
  obtain ⟨htimer, hwhen, hafter⟩ := fire_plan hg hfire
  obtain ⟨a, ha, heq⟩ := hg.exists_planned (hzero ▸ Member.of_lt (show 0 < n by omega) : Member v n te)
  rw [← htimer] at hafter ha
  refine ⟨⟨a, ha, hwhen.trans heq, ?_⟩, hwhen ▸ hdue, hafter⟩
  intro t c hc
  obtain ⟨hmember, hlater⟩ := hg.planned hc
  rw [← heq, ← hlater, ← hzero]
  exact hg.heapOf.top_le hmember

theorem Stops.step {rest : List (Turn C D)} (hg : Good heap v n f l) (hstops : Stops heap rest) :
    Plan.Stops (plan heap) rest := by
  rw [Stops, heap_top_spec hg.heapOf] at hstops
  rcases hstops with hempty | ⟨te, turn, htop, hhead, hlate⟩
  · left
    intro t
    apply hg.plan_out
    rintro ⟨i, hi, -⟩
    have hn : n = 0 := by simpa using hempty
    omega
  · right
    obtain ⟨-, rfl⟩ : n ≠ 0 ∧ v 0 = te := by simpa using htop
    refine ⟨turn, hhead, fun t a ha => ?_⟩
    obtain ⟨hm, heq⟩ := hg.planned ha
    exact heq ▸ hlate.trans_le (hg.heapOf.top_le hm)

theorem firings_plan {firings : List (Firing C D)} (hg : Good heap v n f l) (hrun : Run Fires heap firings heap') :
    Run Plan.Fires (plan heap) (firings.map fun x => (x.turn, x.fired)) (plan heap') ∧
      ∃ v' n' f' l', Good heap' v' n' f' l' := by
  induction hrun with
  | nil => exact ⟨.nil, v, n, f, l, hg⟩
  | @snoc firings heap₁ heap₂ x hrun hx ih =>
    obtain ⟨hplan, v₁, n₁, f₁, l₁, hg₁⟩ := ih
    rw [List.map_append]
    refine ⟨hplan.snoc (hx.step hg₁), ?_⟩
    obtain ⟨te, -, -, hfire, -⟩ := hx
    exact fire_good hg₁ hfire

/-! ## Runs -/

theorem Returned.step {call : Call C D} (hg : Good heap v n f l) (hcall : Returned heap call heap') :
    Plan.Step (plan heap) call (plan heap') := by
  unfold Returned runCall at hcall
  cases call with
  | act a =>
    obtain ⟨⟨heap₁, created, deleted⟩, hact, hpure⟩ := Outcome.bind_eq_done.mp hcall
    cases hpure
    exact ⟨created, deleted, runAct_plan hg hact⟩
  | process turns =>
    obtain ⟨⟨heap₁, processed, log⟩, hprocess, hpure⟩ := Outcome.bind_eq_done.mp hcall
    cases hpure
    obtain ⟨firings, rest, rfl, hfirings, -, -, hstops⟩ := processLoop_done hprocess
    obtain ⟨hrun, v', n', f', l', hg'⟩ := firings_plan hg hfirings
    refine ⟨_, rest, ?_, hrun, hstops.step hg'⟩
    rw [List.map_map]
    rfl

/-- Whatever is called in whatever order, and whatever callbacks do and memory is refused, the heap goes through the
steps of its plan: each timer is called with what it was created with, when it is the first one and due, and until it
is deleted. -/
theorem plan_of_run {maxsize : Int} {calls : List (Call C D)} (hnew : timer_heap_create true true maxsize = some heap₀)
    (hrun : Run Returned heap₀ calls heap) : Run Plan.Step (fun _ => none) calls (plan heap) := by
  have hg₀ := new_good hnew
  have hempty : plan heap₀ = fun _ => none := funext fun t => hg₀.plan_out fun ⟨i, hi, _⟩ => absurd hi (by omega)
  rw [← hempty]
  have hboth : Run Plan.Step (plan heap₀) calls (plan heap) ∧ ∃ v n f l, Good heap v n f l := by
    induction hrun with
    | nil => exact ⟨.nil, _, _, _, _, hg₀⟩
    | snoc hrun hcall ih =>
      obtain ⟨hplan, v, n, f, l, hg⟩ := ih
      exact ⟨hplan.snoc (hcall.step hg), runCall_good hg hcall⟩
  exact hboth.1

/-- A timer fires twice and goes. It created one in its first turn, which stays. -/
theorem plan_sample : ∃ heap : timer_heap Nat Nat, plan heap 0 = none ∧ plan heap 1 = some (8, 0, 0) ∧
    Run Plan.Step (fun _ => none) [.act (.create true true 0 1 0 0), .process sampleTurns] (plan heap) := by
  have hfacts : ((runCall armedHeap (.process sampleTurns)).toOption.map fun heap =>
      decide (plan heap 0 = none ∧ plan heap 1 = some (8, 0, 0))) = some true := by decide +kernel
  obtain ⟨heap, hcall, hfacts⟩ := Option.map_eq_some_iff.mp hfacts
  obtain ⟨hgone, hstays⟩ := of_decide_eq_true hfacts
  have hcreate : Returned newHeap (.act (.create true true 0 1 0 0)) armedHeap := rfl
  have hrun : Run Returned newHeap [.act (.create true true 0 1 0 0), .process sampleTurns] heap :=
    (Run.nil.snoc hcreate).snoc (Outcome.toOption_eq_some.mp hcall)
  exact ⟨heap, hgone, hstays, plan_of_run (show timer_heap_create true true 16 = some newHeap from rfl) hrun⟩

end Akio.Timer
