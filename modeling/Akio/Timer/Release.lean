import Akio.Lib.Sweep
import Akio.Timer.Refused

/-!
# `timer_heap_delete`

It frees the timers of the free list. Those in the heap are not freed, and nothing leads to them any more.
-/

namespace Akio.Timer

variable {C D : Type} {heap heap₀ : timer_heap C D} {v : Nat → Nat} {n : Nat} {f l : List Nat}

/-- What is left in memory of the timers. -/
def timer_heap_delete (fuel : Nat) (heap : timer_heap C D) : Outcome (Store (timer C D)) :=
  heap.timers.sweep (fun n => .done n.next) fuel heap.head_next

theorem Good.nodup_free (hg : Good heap v n f l) : f.Nodup := (List.nodup_append.mp hg.nodup).1

theorem Good.live_free (hg : Good heap v n f l) : ∀ p ∈ f, heap.timers.Live p :=
  fun p hp => (hg.live p).mpr (Or.inr (List.mem_append_left l hp))

theorem member_iff_mem {p : Nat} : Member v n p ↔ p ∈ (List.range n).map v := by
  simp [Member]

theorem Good.left (hg : Good heap v n f l) :
    ((List.range n).map v ++ l).Nodup ∧
      ∀ p, heap.timers.Live p ∧ p ∉ f ↔ p ∈ (List.range n).map v ++ l := by
  obtain ⟨-, hl, hapart⟩ := List.nodup_append.mp hg.nodup
  have hrange : ((List.range n).map v).Nodup := by
    refine List.nodup_range.map_on fun i hi j hj heq => ?_
    exact hg.heapOf.full.inj i (List.mem_range.mp hi) j (List.mem_range.mp hj) heq
  constructor
  · refine List.nodup_append.mpr ⟨hrange, hl, ?_⟩
    rintro p hp q hq rfl
    exact hg.out p (List.mem_append_right f hq) (member_iff_mem.mpr hp)
  · intro p
    rw [hg.live, List.mem_append, List.mem_append, ← member_iff_mem]
    constructor
    · rintro ⟨hm | hf | hin, hnf⟩
      · exact Or.inl hm
      · exact absurd hf hnf
      · exact Or.inr hin
    · rintro (hm | hin)
      · exact ⟨Or.inl hm, fun hf => hg.out p (List.mem_append_left l hf) hm⟩
      · exact ⟨Or.inr (Or.inr hin), fun hf => hapart p hf p hin rfl⟩

/-- From `heap` the timers of the free list, and no others, were freed. What is in the heap stays, and so does a timer
that a refused `realloc` lost. -/
structure Swept (heap : timer_heap C D) (free : List Nat) (timers : Store (timer C D)) : Prop where
  queue : Queue (nextOf heap.timers) heap.head_next heap.tail free
  nodup : free.Nodup
  held : ∀ t ∈ free, heap.timers.Live t
  live : ∀ t, timers.Live t ↔ heap.timers.Live t ∧ t ∉ free
  same : ∀ t, timers.Live t → timers.cell t = heap.timers.cell t
  scheduled : ∀ t, Scheduled heap t → timers.Live t
  blocks : timers.Blocks (heap.allocs - heap.size).toNat

theorem Good.timer_heap_delete_spec (hg : Good heap v n f l) :
    ∃ timers, Outcome.Returns (fun fuel => timer_heap_delete fuel heap) timers ∧ Swept heap f timers := by
  obtain ⟨timers, hsweep, hcell⟩ :=
    Store.sweep_spec (fun _ _ _ _ => rfl) hg.queue.chain hg.nodup_free hg.live_free (Nat.le_refl f.length)
  have hlive (p : Nat) : timers.Live p ↔ heap.timers.Live p ∧ p ∉ f := Store.live_swept hcell
  obtain ⟨hnodup, hleft⟩ := hg.left
  refine ⟨timers, ⟨f.length, hsweep⟩, hg.queue, hg.nodup_free, hg.live_free, hlive, ?_, ?_,
    ⟨_, hnodup, ?_, fun p => (hlive p).trans (hleft p)⟩⟩
  · intro t ht
    rw [hcell, if_neg ((hlive t).mp ht).2]
  · intro t ht
    have hm := hg.scheduled_iff.mp ht
    exact (hlive t).mpr ⟨hg.heapOf.live hm, fun hf => hg.out t (List.mem_append_left l hf) hm⟩
  · have hallocs := hg.allocs
    have hsize := hg.size
    rw [List.length_append, List.length_map, List.length_range]
    omega

/-- After any calls that returned it frees the timers of the free list, each once, and leaves the others as they are.
All that are in the heap are among those. -/
theorem timer_heap_delete_of_run {maxsize : Int} {calls : List (Call C D)}
    (hnew : timer_heap_create true true maxsize = some heap₀) (hrun : Run Returned heap₀ calls heap) :
    ∃ free timers, Outcome.Returns (fun fuel => timer_heap_delete fuel heap) timers ∧ Swept heap free timers := by
  obtain ⟨v, n, f, l, hg⟩ := good_of_returned hnew hrun
  exact ⟨f, hg.timer_heap_delete_spec⟩

/-- Sixteen timers fill the heap, one more is refused its slot, and two are deleted. -/
def lostCalls : List (Call Nat Nat) :=
  sixteenCalls ++ [.act (.create true false 0 1 0 0), .act (.delete 3), .act (.delete 4)]

def lostHeap : timer_heap Nat Nat := (lostCalls.foldlM step? newHeap).get (by decide +kernel)

/-- Of sixteen timers in memory fourteen are in the heap, one is in the free list, and one is lost. -/
theorem timer_heap_delete_sample : lostHeap.allocs = 16 ∧ lostHeap.size = 1 ∧ lostHeap.now = 14 ∧
    ∃ free timers, Outcome.Returns (fun fuel => timer_heap_delete fuel lostHeap) timers ∧
      Swept lostHeap free timers ∧ timers.Blocks 15 := by
  have hrun : Run Returned newHeap lostCalls lostHeap := Run.of_foldlM returned_of_step? (Option.some_get _).symm
  have hallocs : lostHeap.allocs = 16 := by decide +kernel
  have hsize : lostHeap.size = 1 := by decide +kernel
  obtain ⟨free, timers, hreturns, hswept⟩ :=
    timer_heap_delete_of_run (show timer_heap_create true true 16 = some newHeap from rfl) hrun
  have hblocks := hswept.blocks
  rw [hallocs, hsize] at hblocks
  exact ⟨hallocs, hsize, by decide +kernel, free, timers, hreturns, hswept, hblocks⟩

end Akio.Timer
