import Akio.Timer.Process

/-!
# What a timer calls

No function but `create_timer` writes the callback of a timer or its data.
-/

namespace Akio.Timer

variable {C D : Type} {heap heap' : timer_heap C D} {timers timers' : Store (timer C D)} {t : Nat} {i r : Int}
  {p te : Ptr} {fuel : Nat} {created deleted : List Nat}

/-- When a timer is due, its callback and its data. -/
def entry (timers : Store (timer C D)) (t : Nat) : Option (Int × C × D) :=
  (timers.cell t).map fun a => (a.when_msec, a.cb, a.data)

/-- The callback of a timer and its data. -/
def payload (timers : Store (timer C D)) (t : Nat) : Option (C × D) := (timers.cell t).map fun a => (a.cb, a.data)

theorem payload_eq : payload timers t = (entry timers t).map Prod.snd := by
  unfold payload entry
  rw [Option.map_map]
  rfl

theorem entry_of_cell {a : timer C D} (h : timers.cell t = some a) :
    entry timers t = some (a.when_msec, a.cb, a.data) := by
  unfold entry
  rw [h]
  rfl

theorem payload_of_cell {a : timer C D} (h : timers.cell t = some a) : payload timers t = some (a.cb, a.data) := by
  rw [payload_eq, entry_of_cell h]
  rfl

theorem map_modify {α : Type} {g : timer C D → α} {f : timer C D → timer C D}
    (hdone : timers.modify p f = .done timers') (hf : ∀ a, g (f a) = g a) (t : Nat) :
    (timers'.cell t).map g = (timers.cell t).map g := by
  cases p with
  | none => cases hdone
  | some q =>
    rw [Store.modify_live (Store.live_of_modify hdone)] at hdone
    cases hdone
    by_cases htq : t = q
    · subst htq
      rw [Store.adjust_cell_self, Option.map_map]
      exact congrArg (Option.map · (timers.cell t)) (funext hf)
    · rw [Store.adjust_cell_of_ne htq]

theorem entry_modify {f : timer C D → timer C D} (hdone : timers.modify p f = .done timers')
    (hf : ∀ a, ((f a).when_msec, (f a).cb, (f a).data) = (a.when_msec, a.cb, a.data)) :
    entry timers' = entry timers :=
  funext (map_modify hdone hf)

theorem payload_modify {f : timer C D → timer C D} (hdone : timers.modify p f = .done timers')
    (hf : ∀ a, ((f a).cb, (f a).data) = (a.cb, a.data)) : payload timers' = payload timers :=
  funext (map_modify hdone hf)

/-! ## The heap -/

theorem setSlot_entry (hdone : setSlot heap i p = .done heap') : entry heap'.timers = entry heap.timers := by
  unfold setSlot at hdone
  split_ifs at hdone
  obtain ⟨timers, hmodify, hpure⟩ := Outcome.bind_eq_done.mp hdone
  cases hpure
  exact entry_modify hmodify fun _ => rfl

theorem shiftUpLoop_entry (hdone : shiftUpLoop p fuel heap i = .done heap') :
    entry heap'.timers = entry heap.timers := by
  induction fuel generalizing heap i with
  | zero => cases hdone
  | succ fuel ih =>
    unfold shiftUpLoop at hdone
    dsimp only at hdone
    split_ifs at hdone
    · obtain ⟨parent, -, hdone⟩ := Outcome.bind_eq_done.mp hdone
      obtain ⟨greater, -, hdone⟩ := Outcome.bind_eq_done.mp hdone
      split_ifs at hdone
      · obtain ⟨heap₁, hset, hdone⟩ := Outcome.bind_eq_done.mp hdone
        exact (ih hdone).trans (setSlot_entry hset)
      · exact setSlot_entry hdone
    · exact setSlot_entry hdone

theorem shiftDownLoop_entry (hdone : shiftDownLoop p fuel heap i = .done heap') :
    entry heap'.timers = entry heap.timers := by
  induction fuel generalizing heap i with
  | zero => cases hdone
  | succ fuel ih =>
    unfold shiftDownLoop at hdone
    dsimp only at hdone
    split_ifs at hdone
    · obtain ⟨min_child, -, hdone⟩ := Outcome.bind_eq_done.mp hdone
      obtain ⟨c, -, hdone⟩ := Outcome.bind_eq_done.mp hdone
      obtain ⟨greater, -, hdone⟩ := Outcome.bind_eq_done.mp hdone
      split_ifs at hdone
      · obtain ⟨heap₁, hset, hdone⟩ := Outcome.bind_eq_done.mp hdone
        exact (ih hdone).trans (setSlot_entry hset)
      · exact setSlot_entry hdone
    · exact setSlot_entry hdone

theorem shift_entry (hdone : shift heap i p = .done heap') : entry heap'.timers = entry heap.timers := by
  unfold shift at hdone
  dsimp only at hdone
  split_ifs at hdone
  · obtain ⟨parent, -, hdone⟩ := Outcome.bind_eq_done.mp hdone
    obtain ⟨up, -, hdone⟩ := Outcome.bind_eq_done.mp hdone
    split_ifs at hdone
    · exact shiftUpLoop_entry hdone
    · exact shiftDownLoop_entry hdone
  · exact shiftDownLoop_entry hdone

theorem heap_push_entry {realloc : Bool} (hdone : heap_push realloc heap p = .done (heap', r)) :
    entry heap'.timers = entry heap.timers := by
  have hsame : (if heap.all < heap.now + 1 then reserve realloc heap (heap.now + 1) else (heap, 0)).1.timers =
      heap.timers := by
    unfold reserve
    split_ifs <;> rfl
  unfold heap_push at hdone
  rw [← hsame]
  generalize (if heap.all < heap.now + 1 then reserve realloc heap (heap.now + 1) else (heap, 0)) = reserved at *
  obtain ⟨heap₁, r₁⟩ := reserved
  dsimp only at hdone ⊢
  split_ifs at hdone
  · cases hdone
    rfl
  · obtain ⟨heap₂, hshift, hpure⟩ := Outcome.bind_eq_done.mp hdone
    cases hpure
    exact (shiftUpLoop_entry hshift :)

theorem heap_adjust_entry (hdone : heap_adjust heap p = .done (heap', r)) :
    entry heap'.timers = entry heap.timers := by
  obtain ⟨n, -, hdone⟩ := Outcome.bind_eq_done.mp hdone
  obtain ⟨heap₁, hshift, hpure⟩ := Outcome.bind_eq_done.mp hdone
  cases hpure
  exact shift_entry hshift

theorem heap_adjust_payload (hdone : heap_adjust heap p = .done (heap', r)) :
    payload heap'.timers = payload heap.timers := by
  funext t
  rw [payload_eq, payload_eq, heap_adjust_entry hdone]

theorem heap_delete_entry (hdone : heap_delete heap p = .done (heap', r)) :
    entry heap'.timers = entry heap.timers := by
  obtain ⟨last, -, hdone⟩ := Outcome.bind_eq_done.mp hdone
  obtain ⟨n, -, hdone⟩ := Outcome.bind_eq_done.mp hdone
  obtain ⟨heap₁, hshift, hdone⟩ := Outcome.bind_eq_done.mp hdone
  obtain ⟨timers, hmodify, hpure⟩ := Outcome.bind_eq_done.mp hdone
  cases hpure
  exact (entry_modify hmodify fun _ => rfl).trans ((shift_entry hshift).trans rfl)

/-! ## The timers -/

theorem takeTimer_entry {malloc : Bool} {cb : C} {data : D}
    (hdone : takeTimer malloc heap cb data = .done (heap', te)) (hlive : heap.timers.Live t) :
    entry heap'.timers t = entry heap.timers t := by
  unfold takeTimer at hdone
  split_ifs at hdone
  · obtain ⟨n, -, hpure⟩ := Outcome.bind_eq_done.mp hdone
    cases hpure
    rfl
  · cases hdone
    rfl
  · cases hdone
    exact congrArg (Option.map _) (Store.alloc_cell_of_ne hlive.ne_next)

theorem create_timer_entry {malloc realloc : Bool} {clock msec : Int} {cb : C} {data : D} {v : Nat → Nat} {n : Nat}
    {f l : List Nat} (hg : Good heap v n f l)
    (hdone : create_timer malloc realloc clock heap msec (some cb) data = .done (heap', te)) :
    (∀ q, te = some q → entry heap'.timers q = some (clock + msec, cb, data)) ∧
    ∀ q, Member v n q → entry heap'.timers q = entry heap.timers q := by
  unfold create_timer at hdone
  by_cases hmsec : msec > EV_TIMER_END
  swap
  · rw [if_pos hmsec] at hdone
    cases hdone
  rw [if_neg (not_not.mpr hmsec), Outcome.ofOption_some, Outcome.done_bind] at hdone
  obtain ⟨⟨heap₁, taken⟩, htake, hdone⟩ := Outcome.bind_eq_done.mp hdone
  have hsame q (hq : Member v n q) := takeTimer_entry htake (hg.heapOf.live hq)
  rcases takeTimer_spec malloc cb data hg with ⟨hnone, -⟩ | ⟨heap₂, p, f', hsome, hg₁, -⟩
  · cases htake.symm.trans hnone
    cases hdone
    exact ⟨nofun, fun q _ => rfl⟩
  · cases htake.symm.trans hsome
    have hlive : heap₁.timers.Live p := (hg₁.live p).mpr (by simp)
    dsimp only at hdone
    rw [if_neg (Option.some_ne_none p), Store.modify_live hlive, Outcome.done_bind] at hdone
    obtain ⟨⟨heap₂, r⟩, hpush, hpure⟩ := Outcome.bind_eq_done.mp hdone
    cases hpure
    rw [heap_push_entry hpush]
    constructor
    · intro q hq
      dsimp only at hq
      split_ifs at hq
      obtain rfl := Option.some.inj hq
      obtain ⟨a, ha⟩ := Store.live_iff.mp hlive
      refine entry_of_cell (a := { a with next := none, min_heap_idx := -1, when_msec := clock + msec, cb, data }) ?_
      rw [Store.adjust_cell_self, ha]
      rfl
    · intro q hq
      rw [← hsame q hq]
      exact congrArg (Option.map _) (Store.adjust_cell_of_ne (hg₁.ne_loose (Or.inl hq)))

theorem create_timer_payload {malloc realloc : Bool} {clock msec : Int} {cb : C} {data : D} {v : Nat → Nat} {n : Nat}
    {f l : List Nat} (hg : Good heap v n f l)
    (hdone : create_timer malloc realloc clock heap msec (some cb) data = .done (heap', te)) :
    ∀ q, te = some q → payload heap'.timers q = some (cb, data) := by
  intro q hq
  rw [payload_eq, (create_timer_entry hg hdone).1 q hq]
  rfl

theorem create_timer_refused {malloc realloc : Bool} {clock msec : Int} {cb : C} {data : D} {v : Nat → Nat} {n : Nat}
    {f l : List Nat} (hg : Good heap v n f l)
    (hdone : create_timer malloc realloc clock heap msec (some cb) data = .done (heap', none)) :
    malloc = false ∨ realloc = false := by
  unfold create_timer at hdone
  by_cases hmsec : msec > EV_TIMER_END
  swap
  · rw [if_pos hmsec] at hdone
    cases hdone
  rw [if_neg (not_not.mpr hmsec), Outcome.ofOption_some, Outcome.done_bind] at hdone
  obtain ⟨⟨heap₁, taken⟩, htake, hdone⟩ := Outcome.bind_eq_done.mp hdone
  rcases takeTimer_spec malloc cb data hg with ⟨-, -, hmalloc⟩ | ⟨heap₂, p, f', hsome, hg₁, -⟩
  · exact Or.inl hmalloc
  · right
    cases htake.symm.trans hsome
    have hlive : heap₁.timers.Live p := (hg₁.live p).mpr (by simp)
    have hg₂ := hg₁.fill (clock + msec) cb data
    rw [Bool.eq_false_iff]
    intro hrealloc
    obtain ⟨heap₃, v', hpush, -⟩ := heap_push_spec realloc hg₂.heapOf (Store.adjust_live.mpr hlive)
      (hg₁.out p (by simp)) (Or.inl hrealloc)
    dsimp only at hdone
    rw [if_neg (Option.some_ne_none p), Store.modify_live hlive, Outcome.done_bind] at hdone
    cases hdone.symm.trans ((congrArg (· >>= _) hpush).trans rfl)

theorem putTimer_entry {p : Nat} (hdone : putTimer heap (some p) = .done heap') (ht : t ≠ p) :
    entry heap'.timers t = entry heap.timers t := by
  unfold putTimer at hdone
  split_ifs at hdone
  · obtain ⟨timers, hfree, hpure⟩ := Outcome.bind_eq_done.mp hdone
    cases hpure
    unfold Store.free at hfree
    dsimp only at hfree
    split_ifs at hfree
    cases hfree
    exact congrArg (Option.map _) (Store.drop_cell_of_ne ht)
  · cases hdone
    rfl
  · obtain ⟨timers, hmodify, hpure⟩ := Outcome.bind_eq_done.mp hdone
    cases hpure
    exact congrFun (entry_modify hmodify fun _ => rfl) t

theorem delete_timer_entry {p : Nat} (hdone : delete_timer heap (some p) = .done (heap', r)) (ht : t ≠ p) :
    entry heap'.timers t = entry heap.timers t := by
  obtain ⟨n, -, hdone⟩ := Outcome.bind_eq_done.mp hdone
  split_ifs at hdone
  · cases hdone
    rfl
  · obtain ⟨⟨heap₁, q⟩, hdelete, hdone⟩ := Outcome.bind_eq_done.mp hdone
    obtain ⟨heap₂, hput, hpure⟩ := Outcome.bind_eq_done.mp hdone
    cases hpure
    rw [putTimer_entry hput ht, heap_delete_entry hdelete]

end Akio.Timer
