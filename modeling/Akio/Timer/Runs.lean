import Akio.Timer.Heap

/-!
# Runs of the heap operations

The timers in the heap are those pushed and not deleted since. A caller pushes only a timer that is not
in the heap, and deletes or adjusts only one that is.
-/

namespace Akio.Timer

open HeapOrder

variable {C D : Type} {heap heap' : timer_heap C D} {timers : Store (timer C D)} {v : Nat → Nat} {n p : Nat}
  {w : Int} {held gone : List Nat}

/-- A call of a heap operation. A timer gets its time before it is pushed or adjusted. -/
inductive Op where
  | push (p : Nat) (when_msec : Int)
  | delete (p : Nat)
  | adjust (p : Nat) (when_msec : Int)

def setWhen (heap : timer_heap C D) (p : Nat) (when_msec : Int) : Outcome (timer_heap C D) := do
  let timers ← heap.timers.modify p fun n => { n with when_msec }
  return { heap with timers }

def exec (heap : timer_heap C D) : Op → Outcome (timer_heap C D × Int)
  | .push p when_msec => do heap_push true (← setWhen heap p when_msec) p
  | .delete p => heap_delete heap p
  | .adjust p when_msec => do heap_adjust (← setWhen heap p when_msec) p

def execAll (heap : timer_heap C D) : List Op → Outcome (timer_heap C D)
  | [] => return heap
  | op :: ops => do
    let (heap, _) ← exec heap op
    execAll heap ops

/-- The timers in the heap after a call. -/
def holds (held : List Nat) : Op → List Nat
  | .push p _ => p :: held
  | .delete p => held.erase p
  | .adjust _ _ => held

/-- The timers taken out of the heap, and not pushed since, after a call. -/
def removes (gone : List Nat) : Op → List Nat
  | .push p _ => gone.filter (· ≠ p)
  | .delete p => p :: gone
  | .adjust _ _ => gone

/-- What a caller has to know of the timer. -/
def Allowed (timers : Store (timer C D)) (held : List Nat) : Op → Prop
  | .push p _ => timers.Live p ∧ p ∉ held
  | .delete p => p ∈ held
  | .adjust p _ => p ∈ held

instance (timers : Store (timer C D)) (held : List Nat) : (op : Op) → Decidable (Allowed timers held op)
  | .push p _ => inferInstanceAs (Decidable (timers.Live p ∧ p ∉ held))
  | .delete p => inferInstanceAs (Decidable (p ∈ held))
  | .adjust p _ => inferInstanceAs (Decidable (p ∈ held))

def Legal (timers : Store (timer C D)) (held : List Nat) : List Op → Prop
  | [] => True
  | op :: ops => Allowed timers held op ∧ Legal timers (holds held op) ops

instance instDecidableLegal (timers : Store (timer C D)) :
    (held : List Nat) → (ops : List Op) → Decidable (Legal timers held ops)
  | _, [] => inferInstanceAs (Decidable True)
  | held, op :: ops =>
    have := instDecidableLegal timers (holds held op) ops
    inferInstanceAs (Decidable (Allowed timers held op ∧ Legal timers (holds held op) ops))

/-- What a run of calls keeps. -/
structure Keeps (heap : timer_heap C D) (held gone : List Nat) (v : Nat → Nat) (n : Nat) : Prop where
  heapOf : HeapOf heap v n
  nodup : held.Nodup
  member : ∀ p, p ∈ held ↔ Member v n p
  removed : ∀ p ∈ gone, p ∉ held ∧ idx heap.timers p = -1

/-! ## One call -/

theorem setWhen_live (hp : heap.timers.Live p) :
    setWhen heap p w = .done { heap with timers := retime heap.timers p w } := by
  unfold setWhen
  rw [Store.modify_live hp]
  rfl

theorem HeapOf.retime_off (hs : HeapOf heap v n) (hp : heap.timers.Live p) (hnew : ¬ Member v n p) :
    HeapOf { heap with timers := retime heap.timers p w } v n := by
  refine hs.congr ?_ ?_ ?_ ?_ ?_ ?_ <;> try rfl
  · exact fun q hq => Store.adjust_live.mpr (hs.live hq)
  · exact fun q _ => congrFun idx_retime q
  · intro q hq
    rw [due_retime hp, Function.update_of_ne]
    rintro rfl
    exact hnew hq

theorem exec_spec (hk : Keeps heap held gone v n) {op : Op} (hop : Allowed heap.timers held op) :
    ∃ heap' v' n', exec heap op = .done (heap', 0) ∧ Keeps heap' (holds held op) (removes gone op) v' n' ∧
      ∀ p, heap'.timers.Live p ↔ heap.timers.Live p := by
  unfold exec
  cases op with
  | push p w =>
    obtain ⟨hlive, hout⟩ := hop
    have hnew := mt (hk.member p).mpr hout
    obtain ⟨heap', v', hpush, hheap, hmem, hkept⟩ := heap_push_spec true
      (hk.heapOf.retime_off (w := w) hlive hnew) (Store.adjust_live.mpr hlive) hnew (Or.inl rfl)
    refine ⟨heap', v', n + 1, ?_, ⟨hheap, List.nodup_cons.mpr ⟨hout, hk.nodup⟩, ?_, ?_⟩, ?_⟩
    · exact (congrArg (· >>= _) (setWhen_live hlive)).trans hpush
    · intro q
      rw [hmem, ← hk.member]
      exact List.mem_cons
    · intro q hq
      obtain ⟨hgone, hne⟩ := List.mem_filter.mp hq
      obtain ⟨hheld, hidx⟩ := hk.removed q hgone
      have hqp : q ≠ p := by simpa using hne
      have hqout : ¬ (q = p ∨ Member v n q) := by
        rw [← hk.member]
        exact not_or.mpr ⟨hqp, hheld⟩
      refine ⟨fun hmem => (List.mem_cons.mp hmem).elim hqp hheld, ?_⟩
      rw [hkept.timers.idx q hqout]
      exact (congrFun idx_retime q).trans hidx
    · exact fun q => (hkept.timers.live q).trans Store.adjust_live
  | delete p =>
    obtain ⟨heap', v', hdelete, hheap, hmem, hkept, hidx⟩ := heap_delete_spec hk.heapOf ((hk.member p).mp hop)
    refine ⟨heap', v', n - 1, hdelete, ⟨hheap, hk.nodup.erase p, ?_, ?_⟩, hkept.timers.live⟩
    · intro q
      rw [hmem, ← hk.member]
      exact hk.nodup.mem_erase_iff
    · intro q hq
      by_cases hqp : q = p
      · rw [hqp]
        exact ⟨fun hmem => (hk.nodup.mem_erase_iff.mp hmem).1 rfl, hidx⟩
      · obtain ⟨hheld, hold⟩ := hk.removed q ((List.mem_cons.mp hq).resolve_left hqp)
        refine ⟨fun hmem => hheld (List.mem_of_mem_erase hmem), ?_⟩
        rw [hkept.timers.idx q (mt (hk.member q).mpr hheld)]
        exact hold
  | adjust p w =>
    have hp := (hk.member p).mp hop
    have hlive := hk.heapOf.live hp
    obtain ⟨heap', v', hadjust, hheap, hmem, hkept⟩ := heap_adjust_spec
      (show ({ heap with timers := retime heap.timers p w } : timer_heap C D).now = n from hk.heapOf.now)
      hk.heapOf.room hk.heapOf.full.retime hk.heapOf.order hp fun i hi hne => by
        rw [due_retime hlive, Function.update_of_ne hne]
    refine ⟨heap', v', n, ?_, ⟨hheap, hk.nodup, ?_, ?_⟩, ?_⟩
    · exact (congrArg (· >>= _) (setWhen_live hlive)).trans hadjust
    · intro q
      rw [hmem]
      exact hk.member q
    · intro q hq
      obtain ⟨hheld, hold⟩ := hk.removed q hq
      refine ⟨hheld, ?_⟩
      rw [hkept.timers.idx q (mt (hk.member q).mpr hheld)]
      exact (congrFun idx_retime q).trans hold
    · exact fun q => (hkept.timers.live q).trans Store.adjust_live

/-! ## Whole runs -/

theorem legal_of_live {timers' : Store (timer C D)} (hlive : ∀ p, timers'.Live p ↔ timers.Live p)
    {ops : List Op} (hl : Legal timers held ops) : Legal timers' held ops := by
  induction ops generalizing held with
  | nil => trivial
  | cons op ops ih =>
    refine ⟨?_, ih hl.2⟩
    cases op with
    | push p w => exact ⟨(hlive p).mpr hl.1.1, hl.1.2⟩
    | delete p => exact hl.1
    | adjust p w => exact hl.1

theorem execAll_spec (hk : Keeps heap held gone v n) {ops : List Op} (hl : Legal heap.timers held ops) :
    ∃ heap' v' n', execAll heap ops = .done heap' ∧
      Keeps heap' (ops.foldl holds held) (ops.foldl removes gone) v' n' := by
  induction ops generalizing heap held gone v n with
  | nil => exact ⟨heap, v, n, rfl, hk⟩
  | cons op ops ih =>
    obtain ⟨heap₁, v₁, n₁, hexec, hk₁, hlive⟩ := exec_spec hk hl.1
    obtain ⟨heap', v', n', hrest, hk'⟩ := ih hk₁ (legal_of_live hlive hl.2)
    refine ⟨heap', v', n', ?_, hk'⟩
    unfold execAll
    rw [hexec, Outcome.done_bind]
    exact hrest

/-- Every run of pushes, deletes and adjusts from a new heap, over any timers, keeps the heap in order. -/
theorem heap_in_order_of_run (maxsize : Int) (timers : Store (timer C D)) (ops : List Op)
    (hl : Legal timers [] ops) :
    ∃ heap heap' : timer_heap C D, timer_heap_create true true maxsize = some heap ∧
      execAll { heap with timers } ops = .done heap' ∧ MinHeap heap' (ops.foldl holds []) ∧
      ∀ p ∈ ops.foldl removes [], idx heap'.timers p = -1 := by
  obtain ⟨heap, hcreate⟩ : ∃ heap : timer_heap C D, timer_heap_create true true maxsize = some heap :=
    ⟨_, rfl⟩
  have hzero : heap.now = 0 ∧ heap.all = 16 := by
    obtain rfl := Option.some.inj hcreate
    exact ⟨rfl, rfl⟩
  have hk : Keeps { heap with timers } [] [] (fun _ => 0) 0 :=
    ⟨⟨hzero.1, by show heap.now ≤ heap.all; omega, ⟨by simp, by simp, by simp, by simp⟩, fun i _ hi => by omega⟩,
      List.nodup_nil, fun p => by simp [Member], by simp⟩
  obtain ⟨heap', v', n', hrun, hk'⟩ := execAll_spec hk hl
  exact ⟨heap, heap', hcreate, hrun, hk'.heapOf.minHeap hk'.nodup hk'.member, fun p hp => (hk'.removed p hp).2⟩

/-- Three timers for runs on fixed input. -/
def threeTimers : Store (timer Nat Nat) :=
  let blank : timer Nat Nat := ⟨0, 0, 0, 0, none⟩
  (((Store.empty.alloc blank).2.alloc blank).2.alloc blank).2

theorem heap_in_order_of_run_sample : ∃ heap heap' : timer_heap Nat Nat,
    timer_heap_create true true 20 = some heap ∧
    execAll { heap with timers := threeTimers } [.push 0 5, .push 2 3, .push 1 4, .adjust 2 9, .delete 1] =
      .done heap' ∧ MinHeap heap' [2, 0] ∧ ∀ p ∈ [1], idx heap'.timers p = -1 :=
  heap_in_order_of_run 20 threeTimers [.push 0 5, .push 2 3, .push 1 4, .adjust 2 9, .delete 1] (by decide)

end Akio.Timer
