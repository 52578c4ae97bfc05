import Akio.Timer.Process

/-!
# The accounts of the timers

`allocs` counts the timers in memory and `size` those of the free list, which has a bound.
-/

namespace Akio.Timer

variable {C D : Type} {heap heap₀ heap' : timer_heap C D} {v : Nat → Nat} {n t : Nat} {f l : List Nat}

/-- The timer is in a slot of the heap. -/
def Scheduled (heap : timer_heap C D) (t : Nat) : Prop :=
  ∃ i : Nat, (i : Int) < heap.now ∧ heap.tes i = some t

/-- The timers `free` are those of the free list. -/
structure Accounted (heap : timer_heap C D) (free : List Nat) : Prop where
  queue : Queue (nextOf heap.timers) heap.head_next heap.tail free
  nodup : free.Nodup
  size : heap.size = free.length
  cached : heap.size ≤ heap.maxsize
  allocs : heap.allocs = heap.now + heap.size
  apart : ∀ p ∈ free, ¬ Scheduled heap p
  each : ∀ p, heap.timers.Live p ↔ Scheduled heap p ∨ p ∈ free
  deleted : ∀ p ∈ free, delete_timer heap (some p) = .done (heap, -1)

theorem Good.scheduled_iff (hg : Good heap v n f l) : Scheduled heap t ↔ Member v n t := by
  have hnow := hg.heapOf.now
  unfold Scheduled Member
  constructor
  · rintro ⟨i, hi, hslot⟩
    refine ⟨i, by omega, ?_⟩
    rw [hg.heapOf.full.slot i (by omega) (by omega)] at hslot
    exact Option.some.inj hslot
  · rintro ⟨i, hi, rfl⟩
    exact ⟨i, by omega, hg.heapOf.full.slot i hi (by omega)⟩

theorem Good.accounted (hg : Good heap v n f []) : Accounted heap f := by
  have hlist : f ++ [] = f := List.append_nil f
  refine ⟨hg.queue, hlist ▸ hg.nodup, hg.size, hg.cached, ?_, ?_, ?_, ?_⟩
  · rw [hg.allocs, hg.size, hg.heapOf.now, List.length_nil]
    omega
  · intro p hp
    rw [hg.scheduled_iff]
    exact hg.out p (hlist.symm ▸ hp)
  · intro p
    rw [hg.scheduled_iff, hg.live, hlist]
  · intro p hp
    rw [← hlist] at hp
    rcases delete_timer_spec hg ((hg.live p).mpr (Or.inr hp)) with ⟨-, hdelete⟩ | ⟨hm, -⟩
    · exact hdelete
    · exact absurd hm (hg.out p hp)

/-- After every run of safe calls the counters are right, a timer is in the heap or in the free list, and
deleting one of the free list changes nothing. -/
theorem timers_accounted_of_run {maxsize : Int} {calls : List (Call C D)}
    (hnew : timer_heap_create true true maxsize = some heap₀) (hrun : Run Safely heap₀ calls heap) :
    ∃ free, Accounted heap free := by
  obtain ⟨v, n, f, hg⟩ := good_of_run hnew hrun
  exact ⟨f, hg.accounted⟩

theorem timers_accounted_sample :
    ∃ heap, Run Safely newHeap [.act (.create true true 0 1 0 0), .act (.delete 0)] heap ∧
      heap.size = 1 ∧ ∃ free, Accounted heap free := by
  have hsafe : SafeCall armedHeap (.act (.delete 0)) := show armedHeap.timers.Live 0 by decide
  have hrun := armed_run.snoc ⟨hsafe, rfl⟩
  exact ⟨_, hrun, rfl, timers_accounted_of_run (show timer_heap_create true true 16 = some newHeap from rfl) hrun⟩

end Akio.Timer
