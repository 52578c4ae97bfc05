import Akio.Timer.Heap
import Akio.Lib.Queue

/-!
# The timers of a heap and its free list

A timer is in the heap, or in the free list, or loose: taken out of one and not yet put in the other. One
spec for each function that moves timers.
-/

namespace Akio.Timer

variable {C D : Type} {heap heap' : timer_heap C D} {v : Nat → Nat} {n p q t : Nat} {f l : List Nat}
  {cb : C} {data : D} {malloc : Bool}

/-- The heap holds `v 0`, .. , `v (n - 1)`, the free list is `f`, and the timers `l` are loose. -/
structure Good (heap : timer_heap C D) (v : Nat → Nat) (n : Nat) (f l : List Nat) : Prop where
  heapOf : HeapOf heap v n
  queue : Queue (nextOf heap.timers) heap.head_next heap.tail f
  nodup : (f ++ l).Nodup
  size : heap.size = f.length
  cached : heap.size ≤ heap.maxsize
  allocs : heap.allocs = n + f.length + l.length
  out : ∀ p ∈ f ++ l, ¬ Member v n p
  freed : ∀ p ∈ f ++ l, idx heap.timers p = -1
  next : ∀ p, Member v n p → nextOf heap.timers p = none
  live : ∀ p, heap.timers.Live p ↔ Member v n p ∨ p ∈ f ++ l

/-- From one heap to the next, while the clock shows `readings`: a time that is new in the heap is not
before all readings. -/
def Onward (heap : timer_heap C D) (v : Nat → Nat) (n : Nat) (heap' : timer_heap C D) (v' : Nat → Nat)
    (n' : Nat) (readings : List Int) : Prop :=
  ∀ lo, (∀ r ∈ readings, lo ≤ r) → (∀ p, Member v n p → lo ≤ due heap.timers p) →
    ∀ p, Member v' n' p → lo ≤ due heap'.timers p

section Onward

variable {heap₁ heap₂ : timer_heap C D} {v₁ v₂ : Nat → Nat} {n₁ n₂ : Nat} {r₁ r₂ : List Int}

theorem Onward.refl : Onward heap v n heap v n r₁ := fun _ _ h => h

theorem Onward.trans (h₁ : Onward heap v n heap₁ v₁ n₁ r₁) (h₂ : Onward heap₁ v₁ n₁ heap₂ v₂ n₂ r₂) :
    Onward heap v n heap₂ v₂ n₂ (r₁ ++ r₂) := by
  intro lo hr hlo
  apply h₂ lo fun r hin => hr r (List.mem_append_right r₁ hin)
  exact h₁ lo (fun r hin => hr r (List.mem_append_left r₂ hin)) hlo

theorem Onward.mono (h : Onward heap v n heap₁ v₁ n₁ r₁) (hsub : ∀ r ∈ r₁, r ∈ r₂) :
    Onward heap v n heap₁ v₁ n₁ r₂ :=
  fun lo hr hlo => h lo (fun r hin => hr r (hsub r hin)) hlo

theorem Onward.of_due
    (hdue : ∀ p, Member v₁ n₁ p → (Member v n p ∧ due heap₁.timers p = due heap.timers p) ∨
      ∃ r ∈ r₁, r ≤ due heap₁.timers p) : Onward heap v n heap₁ v₁ n₁ r₁ := by
  intro lo hr hlo p hp
  rcases hdue p hp with ⟨hm, heq⟩ | ⟨r, hin, hle⟩
  · rw [heq]
    exact hlo p hm
  · exact (hr r hin).trans hle

end Onward

theorem Good.idx_neg_iff (hg : Good heap v n f l) (hp : heap.timers.Live p) :
    idx heap.timers p < 0 ↔ p ∈ f ++ l := by
  constructor
  · intro hneg
    rcases (hg.live p).mp hp with hm | hf
    · obtain ⟨i, -, -, hidx⟩ := hg.heapOf.idx_member hm
      omega
    · exact hf
  · intro hf
    rw [hg.freed p hf]
    decide

theorem Good.ne_loose (hg : Good heap v n f (p :: l)) (hq : Member v n q ∨ q ∈ f ++ l) : q ≠ p := by
  rintro rfl
  rcases hq with hm | hq
  · exact hg.out q (by simp) hm
  · have hnodup := List.nodup_middle.mp hg.nodup
    exact (List.nodup_cons.mp hnodup).1 hq

/-! ## `takeTimer` -/

theorem Good.take (hg : Good heap v n (p :: f) l) {head_next tail : Ptr}
    (hhead : head_next = nextOf heap.timers p) (htail : tail = if head_next = none then none else heap.tail) :
    Good { heap with head_next, tail, size := heap.size - 1 } v n f (p :: l) := by
  have hmem : ∀ q, q ∈ f ++ p :: l ↔ q ∈ p :: f ++ l := by simp [or_left_comm]
  refine ⟨?_, ?_, ?_, ?_, ?_, ?_, ?_, ?_, hg.next, ?_⟩
  · refine hg.heapOf.congr ?_ ?_ ?_ (fun q hq => hg.heapOf.live hq) ?_ ?_ <;> intros <;> rfl
  · subst hhead htail
    exact hg.queue.pop
  · exact List.nodup_middle.mpr hg.nodup
  · show heap.size - 1 = _
    rw [hg.size, List.length_cons]
    omega
  · show heap.size - 1 ≤ heap.maxsize
    have := hg.cached
    omega
  · show heap.allocs = _
    rw [hg.allocs, List.length_cons, List.length_cons]
    omega
  · exact fun q hq => hg.out q ((hmem q).mp hq)
  · exact fun q hq => hg.freed q ((hmem q).mp hq)
  · intro q
    rw [hmem]
    exact hg.live q

theorem Good.alloc (hg : Good heap v n f l) {a : timer C D} (ha : a.min_heap_idx = -1) :
    Good { heap with timers := (heap.timers.alloc a).2, allocs := heap.allocs + 1 } v n f
      (heap.timers.next :: l) := by
  have hold : ∀ q, heap.timers.Live q → q ≠ heap.timers.next := fun q hq => hq.ne_next
  have hmem : ∀ q, Member v n q → q ≠ heap.timers.next := fun q hq => hold q (hg.heapOf.live hq)
  have hlist : ∀ q ∈ f ++ l, q ≠ heap.timers.next := fun q hq => hold q ((hg.live q).mpr (Or.inr hq))
  have hin : ∀ q, q ∈ f ++ heap.timers.next :: l ↔ q = heap.timers.next ∨ q ∈ f ++ l := by
    simp [or_left_comm]
  refine ⟨?_, ?_, ?_, hg.size, hg.cached, ?_, ?_, ?_, ?_, ?_⟩
  · refine hg.heapOf.congr ?_ ?_ ?_ ?_ ?_ ?_ <;> try rfl
    · exact fun q hq => Store.alloc_live.mpr (Or.inr (hg.heapOf.live hq))
    · intro q hq
      exact (congrFun Store.field_alloc q).trans (Function.update_of_ne (hmem q hq) _ _)
    · intro q hq
      exact (congrFun Store.field_alloc q).trans (Function.update_of_ne (hmem q hq) _ _)
  · apply hg.queue.congr
    intro q hq
    exact (congrFun Store.field_alloc q).trans
      (Function.update_of_ne (hlist q (List.mem_append_left l hq)) _ _)
  · rw [List.nodup_middle, List.nodup_cons]
    exact ⟨fun hf => hlist _ hf rfl, hg.nodup⟩
  · show heap.allocs + 1 = _
    rw [hg.allocs, List.length_cons]
    omega
  · intro q hq hm
    exact hg.out q (((hin q).mp hq).resolve_left (hmem q hm)) hm
  · intro q hq
    refine (congrFun Store.field_alloc q).trans ?_
    rcases (hin q).mp hq with rfl | hq
    · rw [Function.update_self]
      exact ha
    · rw [Function.update_of_ne (hlist q hq)]
      exact hg.freed q hq
  · intro q hq
    refine (congrFun Store.field_alloc q).trans ?_
    rw [Function.update_of_ne (hmem q hq)]
    exact hg.next q hq
  · intro q
    refine Store.alloc_live.trans ?_
    rw [hg.live, hin]
    tauto

theorem takeTimer_spec (malloc : Bool) (cb : C) (data : D) (hg : Good heap v n f l) :
    takeTimer malloc heap cb data = .done (heap, none) ∧ heap.head_next = none ∧ malloc = false ∨
    ∃ heap' p f', takeTimer malloc heap cb data = .done (heap', some p) ∧ Good heap' v n f' (p :: l) ∧
      heap'.now = heap.now ∧ heap'.all = heap.all ∧ ¬ (heap.head_next = none ∧ malloc = false) ∧
      ∀ q, Member v n q → due heap'.timers q = due heap.timers q := by
  unfold takeTimer
  have hhead := hg.queue.chain.head_eq
  cases f with
  | nil =>
    rw [List.head?_nil] at hhead
    rw [if_neg (not_not.mpr hhead)]
    cases malloc with
    | false => exact Or.inl ⟨rfl, hhead, rfl⟩
    | true =>
      refine Or.inr ⟨_, _, [], rfl, hg.alloc rfl, rfl, rfl, by simp, ?_⟩
      intro q hq
      refine (congrFun Store.field_alloc q).trans ?_
      exact Function.update_of_ne (hg.heapOf.live hq).ne_next _ _
  | cons p f =>
    rw [List.head?_cons] at hhead
    have hlive := (hg.live p).mpr (Or.inr (List.mem_append_left l List.mem_cons_self))
    obtain ⟨a, ha⟩ := Store.live_iff.mp hlive
    refine Or.inr ⟨_, p, f, ?_, hg.take (Store.field_of_cell ha).symm rfl, rfl, rfl, by simp [hhead],
      fun q _ => rfl⟩
    rw [if_pos (by simp [hhead]), hhead, Store.read_of_cell ha]
    rfl

/-! ## `create_timer` -/

/-- `timers` with what `create_timer` writes to the timer `p`. -/
abbrev fill (timers : Store (timer C D)) (p : Nat) (when_msec : Int) (cb : C) (data : D) :
    Store (timer C D) :=
  timers.adjust p fun n => { n with next := none, min_heap_idx := -1, when_msec, cb, data }

theorem Good.fill (hg : Good heap v n f (p :: l)) (w : Int) (cb : C) (data : D) :
    Good { heap with timers := fill heap.timers p w cb data } v n f (p :: l) := by
  have hcell : ∀ q, Member v n q ∨ q ∈ f ++ l →
      (Timer.fill heap.timers p w cb data).cell q = heap.timers.cell q :=
    fun q hq => Store.adjust_cell_of_ne (hg.ne_loose hq)
  have hlive : heap.timers.Live p := (hg.live p).mpr (by simp)
  refine ⟨?_, ?_, hg.nodup, hg.size, hg.cached, hg.allocs, hg.out, ?_, ?_,
    fun q => Store.adjust_live.trans (hg.live q)⟩
  · refine hg.heapOf.congr ?_ ?_ ?_ ?_ ?_ ?_ <;> try rfl
    · exact fun q hq => Store.adjust_live.mpr (hg.heapOf.live hq)
    · exact fun q hq => Store.field_congr (hcell q (Or.inl hq))
    · exact fun q hq => Store.field_congr (hcell q (Or.inl hq))
  · exact hg.queue.congr fun q hq => Store.field_congr (hcell q (Or.inr (List.mem_append_left l hq)))
  · intro q hq
    have hidx : idx (Timer.fill heap.timers p w cb data) = Function.update (idx heap.timers) p (-1) :=
      Store.field_adjust_set (fun _ => rfl) hlive
    show idx (Timer.fill heap.timers p w cb data) q = -1
    rw [hidx, Function.update_apply]
    split_ifs
    · rfl
    · exact hg.freed q hq
  · intro q hq
    exact (Store.field_congr (hcell q (Or.inl hq))).trans (hg.next q hq)

theorem Good.push (hg : Good heap v n f (p :: l)) (hnext : nextOf heap.timers p = none)
    {v' : Nat → Nat} (hheap : HeapOf heap' v' (n + 1))
    (hmem : ∀ q, Member v' (n + 1) q ↔ q = p ∨ Member v n q)
    (hkept : Kept heap heap' fun q => q = p ∨ Member v n q) : Good heap' v' (n + 1) f l := by
  have hin : ∀ q, q ∈ f ++ p :: l ↔ q = p ∨ q ∈ f ++ l := by simp [or_left_comm]
  have hout : ∀ q ∈ f ++ l, ¬ (q = p ∨ Member v n q) := by
    rintro q hq (hqp | hm)
    · exact hg.ne_loose (Or.inr hq) hqp
    · exact hg.out q ((hin q).mpr (Or.inr hq)) hm
  refine ⟨hheap, ?_, ?_, ?_, ?_, ?_, ?_, ?_, ?_, ?_⟩
  · rw [hkept.timers.next, hkept.head_next, hkept.tail]
    exact hg.queue
  · exact (List.nodup_cons.mp (List.nodup_middle.mp hg.nodup)).2
  · rw [hkept.size, hg.size]
  · rw [hkept.size, hkept.maxsize]
    exact hg.cached
  · rw [hkept.allocs, hg.allocs, List.length_cons]
    omega
  · exact fun q hq hm => hout q hq ((hmem q).mp hm)
  · intro q hq
    rw [hkept.timers.idx q (hout q hq)]
    exact hg.freed q ((hin q).mpr (Or.inr hq))
  · intro q hq
    rw [hkept.timers.next]
    rcases (hmem q).mp hq with rfl | hm
    · exact hnext
    · exact hg.next q hm
  · intro q
    rw [hkept.timers.live, hg.live, hmem, hin]
    tauto

/-- Where the slots have to grow and `realloc` refuses, the timer taken for the call is lost. -/
def Granted (heap : timer_heap C D) (malloc realloc : Bool) : Prop :=
  realloc = true ∨ heap.now < heap.all ∨ (heap.head_next = none ∧ malloc = false)

theorem create_timer_spec (malloc realloc : Bool) (clock : Int) {msec : Int} (hg : Good heap v n f l)
    (hmsec : msec > EV_TIMER_END) (cb : C) (data : D) :
    ∃ heap' te v' n' f' l', create_timer malloc realloc clock heap msec (some cb) data = .done (heap', te) ∧
      Good heap' v' n' f' l' ∧ (Granted heap malloc realloc → l' = l ∧ (te = none → heap' = heap)) ∧
      (¬ Granted heap malloc realloc → te = none ∧ n' = n ∧ l'.length = l.length + 1) ∧
      (∀ q, te = some q → ¬ Member v n q) ∧ (∀ q, Member v' n' q ↔ te = some q ∨ Member v n q) ∧
      Onward heap v n heap' v' n' [clock] := by
  unfold create_timer
  rw [if_neg (not_not.mpr hmsec), Outcome.ofOption_some, Outcome.done_bind]
  rcases takeTimer_spec malloc cb data hg with ⟨htake, hnone⟩ |
    ⟨heap₁, p, f', htake, hg₁, hnow, hall, htaken, hdue₁⟩
  · rw [htake]
    exact ⟨heap, none, v, n, f, l, rfl, hg, fun _ => ⟨rfl, fun _ => rfl⟩,
      fun hlost => absurd (Or.inr (Or.inr hnone)) hlost, by simp, by simp, Onward.refl⟩
  · have hlive : heap₁.timers.Live p := (hg₁.live p).mpr (by simp)
    have hnew : ¬ Member v n p := hg₁.out p (by simp)
    have hg₂ := hg₁.fill (clock + msec) cb data
    have hdue₂ : due (fill heap₁.timers p (clock + msec) cb data) =
        Function.update (due heap₁.timers) p (clock + msec) := Store.field_adjust_set (fun _ => rfl) hlive
    have hold : ∀ q, Member v n q →
        due (fill heap₁.timers p (clock + msec) cb data) q = due heap.timers q := by
      intro q hq
      rw [hdue₂, Function.update_of_ne (hg₁.ne_loose (Or.inl hq))]
      exact hdue₁ q hq
    rw [htake, Outcome.done_bind]
    dsimp only
    rw [if_neg (Option.some_ne_none p), Store.modify_live hlive, Outcome.done_bind]
    by_cases hgrant : realloc = true ∨ heap₁.now < heap₁.all
    · obtain ⟨heap', v', hpush, hheap, hmem, hkept⟩ :=
        heap_push_spec realloc hg₂.heapOf (Store.adjust_live.mpr hlive) hnew hgrant
      have hnext : nextOf (fill heap₁.timers p (clock + msec) cb data) p = none := by
        unfold nextOf
        rw [Store.field_adjust_set (fun _ => rfl) hlive, Function.update_self]
      refine ⟨heap', some p, v', n + 1, f', l, ?_, hg₂.push hnext hheap hmem hkept, fun _ => ⟨rfl, nofun⟩, ?_,
        ?_, ?_, ?_⟩
      · exact (congrArg (· >>= _) hpush).trans rfl
      · intro hlost
        rw [hnow, hall] at hgrant
        exact absurd (hgrant.imp_right Or.inl) hlost
      · rintro q hq
        rwa [← Option.some.inj hq]
      · intro q
        rw [hmem, Option.some_inj, eq_comm]
      · apply Onward.of_due
        intro q hq
        rw [hkept.timers.due]
        rcases (hmem q).mp hq with rfl | hm
        · refine Or.inr ⟨clock, List.mem_singleton_self clock, ?_⟩
          unfold EV_TIMER_END at hmsec
          rw [hdue₂, Function.update_self]
          omega
        · exact Or.inl ⟨hm, hold q hm⟩
    · have hpush := heap_push_refused (p := p) hg₂.heapOf.room hgrant
      refine ⟨_, none, v, n, f', p :: l, ?_, hg₂, ?_, fun _ => ⟨rfl, rfl, rfl⟩, by simp, by simp, ?_⟩
      · exact (congrArg (· >>= _) hpush).trans rfl
      · intro hgranted
        unfold Granted at hgranted
        rw [← hnow, ← hall, ← or_assoc] at hgranted
        exact absurd hgranted (not_or.mpr ⟨hgrant, htaken⟩)
      · exact Onward.of_due fun q hq => Or.inl ⟨hq, hold q hq⟩

/-! ## `delete_timer` -/

theorem Good.delete (hg : Good heap v n f l) (hp : Member v n p) {v' : Nat → Nat}
    (hheap : HeapOf heap' v' (n - 1)) (hmem : ∀ q, Member v' (n - 1) q ↔ q ≠ p ∧ Member v n q)
    (hkept : Kept heap heap' (Member v n)) (hidx : idx heap'.timers p = -1) :
    Good heap' v' (n - 1) f (p :: l) := by
  have hin : ∀ q, q ∈ f ++ p :: l ↔ q = p ∨ q ∈ f ++ l := by simp [or_left_comm]
  have hpout : p ∉ f ++ l := fun hq => hg.out p hq hp
  refine ⟨hheap, ?_, ?_, ?_, ?_, ?_, ?_, ?_, ?_, ?_⟩
  · rw [hkept.timers.next, hkept.head_next, hkept.tail]
    exact hg.queue
  · rw [List.nodup_middle, List.nodup_cons]
    exact ⟨hpout, hg.nodup⟩
  · rw [hkept.size, hg.size]
  · rw [hkept.size, hkept.maxsize]
    exact hg.cached
  · obtain ⟨i, hi, -⟩ := hp
    rw [hkept.allocs, hg.allocs, List.length_cons]
    omega
  · intro q hq hm
    obtain ⟨hne, hmq⟩ := (hmem q).mp hm
    exact hg.out q (((hin q).mp hq).resolve_left hne) hmq
  · intro q hq
    rcases (hin q).mp hq with rfl | hq
    · exact hidx
    · rw [hkept.timers.idx q (hg.out q hq)]
      exact hg.freed q hq
  · intro q hq
    rw [hkept.timers.next]
    exact hg.next q ((hmem q).mp hq).2
  · intro q
    rw [hkept.timers.live, hg.live, hmem, hin]
    by_cases hqp : q = p
    · simp [hqp, hp]
    · simp [hqp]

theorem Good.free (hg : Good heap v n f (p :: l)) :
    Good { heap with timers := heap.timers.drop p, allocs := heap.allocs - 1 } v n f l := by
  have hin : ∀ q, q ∈ f ++ p :: l ↔ q = p ∨ q ∈ f ++ l := by simp [or_left_comm]
  have hcell : ∀ q, Member v n q ∨ q ∈ f ++ l → (heap.timers.drop p).cell q = heap.timers.cell q :=
    fun q hq => Store.drop_cell_of_ne (hg.ne_loose hq)
  refine ⟨?_, ?_, ?_, hg.size, hg.cached, ?_, ?_, ?_, ?_, ?_⟩
  · refine hg.heapOf.congr ?_ ?_ ?_ ?_ ?_ ?_ <;> try rfl
    · exact fun q hq => Store.drop_live.mpr ⟨hg.ne_loose (Or.inl hq), hg.heapOf.live hq⟩
    · exact fun q hq => Store.field_congr (hcell q (Or.inl hq))
    · exact fun q hq => Store.field_congr (hcell q (Or.inl hq))
  · exact hg.queue.congr fun q hq => Store.field_congr (hcell q (Or.inr (List.mem_append_left l hq)))
  · exact (List.nodup_cons.mp (List.nodup_middle.mp hg.nodup)).2
  · show heap.allocs - 1 = _
    rw [hg.allocs, List.length_cons]
    omega
  · exact fun q hq => hg.out q ((hin q).mpr (Or.inr hq))
  · intro q hq
    exact (Store.field_congr (hcell q (Or.inr hq))).trans (hg.freed q ((hin q).mpr (Or.inr hq)))
  · intro q hq
    exact (Store.field_congr (hcell q (Or.inl hq))).trans (hg.next q hq)
  · intro q
    refine Store.drop_live.trans ?_
    rw [hg.live, hin]
    constructor
    · tauto
    · intro hq
      exact ⟨hg.ne_loose hq, hq.imp_right Or.inr⟩

theorem Good.put (hg : Good heap v n f (p :: l)) (hroom : heap.size + 1 ≤ heap.maxsize) {head_next : Ptr}
    {timers : Store (timer C D)} (hlive : ∀ q, timers.Live q ↔ heap.timers.Live q)
    (hidxs : idx timers = idx heap.timers) (hdue : due timers = due heap.timers)
    (hnext : ∀ q, Member v n q → nextOf timers q = nextOf heap.timers q)
    (hqueue : Queue (nextOf timers) head_next (some p) (f ++ [p])) :
    Good { heap with timers, head_next, tail := some p, size := heap.size + 1 } v n (f ++ [p]) l := by
  have hlist : f ++ [p] ++ l = f ++ p :: l := List.append_assoc f [p] l
  refine ⟨?_, hqueue, ?_, ?_, hroom, ?_, ?_, ?_, ?_, ?_⟩
  · refine hg.heapOf.congr ?_ ?_ ?_ ?_ ?_ ?_ <;> try rfl
    · exact fun q hq => (hlive q).mpr (hg.heapOf.live hq)
    · exact fun q _ => congrFun hidxs q
    · exact fun q _ => congrFun hdue q
  · rw [hlist]
    exact hg.nodup
  · show heap.size + 1 = _
    rw [hg.size, List.length_append, List.length_singleton]
    omega
  · show heap.allocs = _
    rw [hg.allocs, List.length_append, List.length_singleton, List.length_cons]
    omega
  · rw [hlist]
    exact hg.out
  · rw [hlist]
    exact fun q hq => (congrFun hidxs q).trans (hg.freed q hq)
  · exact fun q hq => (hnext q hq).trans (hg.next q hq)
  · intro q
    rw [hlive, hg.live, hlist]

theorem putTimer_spec (hg : Good heap v n f (p :: l)) (hnext : nextOf heap.timers p = none) :
    ∃ heap' f', putTimer heap (some p) = .done heap' ∧ Good heap' v n f' l ∧
      ∀ q, Member v n q → due heap'.timers q = due heap.timers q := by
  have hlive : heap.timers.Live p := (hg.live p).mpr (by simp)
  unfold putTimer
  by_cases hfull : heap.allocs > heap.maxsize
  · rw [if_pos hfull, Store.free_live hlive]
    refine ⟨_, f, rfl, hg.free, ?_⟩
    exact fun q hq => Store.field_congr (Store.drop_cell_of_ne (hg.ne_loose (Or.inl hq)))
  · rw [if_neg hfull]
    -- A timer is cached only while there are no more timers than the bound.
    have hroom : heap.size + 1 ≤ heap.maxsize := by
      have hallocs := hg.allocs
      rw [List.length_cons] at hallocs
      rw [hg.size]
      omega
    have hnd : f.Nodup := (List.nodup_append.mp hg.nodup).1
    have hpout : p ∉ f := fun hf => hg.ne_loose (Or.inr (List.mem_append_left l hf)) rfl
    have hqueue := hg.queue
    cases htail : heap.tail with
    | none =>
      rw [htail] at hqueue
      obtain rfl := hqueue.tail_none_iff.mp rfl
      rw [if_pos rfl]
      exact ⟨_, [p], rfl, hg.put hroom (fun _ => Iff.rfl) rfl rfl (fun _ _ => rfl) (Queue.single hnext),
        fun _ _ => rfl⟩
    | some q =>
      rw [htail] at hqueue
      have hqf : q ∈ f := List.mem_of_getLast? hqueue.last.symm
      have hq : heap.timers.Live q := (hg.live q).mpr (Or.inr (List.mem_append_left (p :: l) hqf))
      have hlink : nextOf (heap.timers.adjust q fun n => { n with next := some p }) =
          Function.update (nextOf heap.timers) q (some p) := Store.field_adjust_set (fun _ => rfl) hq
      have hdue : due (heap.timers.adjust q fun n => { n with next := some p }) = due heap.timers :=
        Store.field_adjust_keep fun _ => rfl
      rw [if_neg (Option.some_ne_none q), Store.modify_live hq]
      refine ⟨_, f ++ [p], rfl, hg.put hroom (fun _ => Store.adjust_live)
        (Store.field_adjust_keep fun _ => rfl) hdue ?_ ?_, fun r _ => congrFun hdue r⟩
      · intro r hr
        rw [hlink, Function.update_of_ne]
        rintro rfl
        exact hg.out r (List.mem_append_left (p :: l) hqf) hr
      · rw [hlink]
        exact hqueue.push hnd hpout hnext

theorem delete_timer_spec (hg : Good heap v n f l) (hp : heap.timers.Live p) :
    (p ∈ f ++ l ∧ delete_timer heap (some p) = .done (heap, -1)) ∨
    (Member v n p ∧ ∃ heap' v' f', delete_timer heap (some p) = .done (heap', 0) ∧
      Good heap' v' (n - 1) f' l ∧ (∀ q, Member v' (n - 1) q ↔ q ≠ p ∧ Member v n q) ∧
      Onward heap v n heap' v' (n - 1) []) := by
  obtain ⟨a, ha⟩ := Store.live_iff.mp hp
  have hidx : idx heap.timers p = a.min_heap_idx := Store.field_of_cell ha
  have hnext : nextOf heap.timers p = a.next := Store.field_of_cell ha
  unfold delete_timer
  rw [Store.read_of_cell ha, Outcome.done_bind, ← hidx, ← hnext]
  by_cases hm : Member v n p
  · obtain ⟨heap₁, v', hdelete, hheap, hmem, hkept, hidx'⟩ := heap_delete_spec hg.heapOf hm
    have hg₁ := hg.delete hm hheap hmem hkept hidx'
    have hnext' : nextOf heap₁.timers p = none := (congrFun hkept.timers.next p).trans (hg.next p hm)
    obtain ⟨heap', f', hput, hg', hdue⟩ := putTimer_spec hg₁ hnext'
    refine Or.inr ⟨hm, heap', v', f', ?_, hg', hmem, ?_⟩
    · have hstop : ¬ (idx heap.timers p < 0 ∨ nextOf heap.timers p ≠ none) := by
        rw [hg.idx_neg_iff hp, not_or, not_not]
        exact ⟨fun hf => hg.out p hf hm, hg.next p hm⟩
      rw [if_neg hstop, hdelete, Outcome.done_bind]
      exact (congrArg (· >>= _) hput).trans rfl
    · apply Onward.of_due
      intro q hq
      refine Or.inl ⟨((hmem q).mp hq).2, ?_⟩
      rw [hdue q hq, hkept.timers.due]
  · have hf : p ∈ f ++ l := ((hg.live p).mp hp).resolve_left hm
    rw [if_pos (Or.inl ((hg.idx_neg_iff hp).mpr hf))]
    exact Or.inl ⟨hf, rfl⟩

end Akio.Timer
