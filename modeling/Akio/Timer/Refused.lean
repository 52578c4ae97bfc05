import Akio.Timer.Reach

/-!
# When `create_timer` fails

A timer that was taken from the free list or allocated is lost when `realloc` refuses a slot for it.
-/

namespace Akio.Timer

variable {C D : Type} {heap heap' heap₀ : timer_heap C D} {malloc realloc : Bool} {clock msec : Int}

/-- The heap, the free list and the counters are as before. -/
structure NoTrace (heap heap' : timer_heap C D) : Prop where
  now : heap'.now = heap.now
  tes : heap'.tes = heap.tes
  timers : heap'.timers = heap.timers
  head_next : heap'.head_next = heap.head_next
  tail : heap'.tail = heap.tail
  size : heap'.size = heap.size
  allocs : heap'.allocs = heap.allocs
  accounted : heap.allocs = heap.now + heap.size → heap'.allocs = heap'.now + heap'.size

theorem NoTrace.refl : NoTrace heap heap := ⟨rfl, rfl, rfl, rfl, rfl, rfl, rfl, id⟩

/-- In every heap that calls can lead to, a `create_timer` that returns NULL leaves no trace exactly when its
`realloc` is not refused, or no timer was taken for it. -/
theorem create_fails_cleanly_iff {maxsize : Int} {calls : List (Call C D)}
    (hnew : timer_heap_create true true maxsize = some heap₀) (hrun : Run Returned heap₀ calls heap)
    (hmsec : msec > EV_TIMER_END) (cb : C) (data : D) :
    (∀ heap', create_timer malloc realloc clock heap msec (some cb) data = .done (heap', none) →
      NoTrace heap heap') ↔ Granted heap malloc realloc := by
  obtain ⟨v, n, f, l, hg⟩ := good_of_returned hnew hrun
  obtain ⟨heap', te, v', n', f', l', hcreate, hg', hgranted, hlost, -⟩ :=
    create_timer_spec malloc realloc clock hg hmsec cb data
  constructor
  · intro hclean
    by_contra hnot
    obtain ⟨rfl, rfl, hlength⟩ := hlost hnot
    have hsame := hclean heap' hcreate
    -- The timer taken is counted in `allocs`, and is neither in the heap nor in the free list.
    have hallocs := hg.allocs
    have hallocs' := hg'.allocs
    have hsize := hg.size
    have hsize' := hg'.size
    rw [hsame.allocs] at hallocs'
    rw [hsame.size] at hsize'
    omega
  · intro hgrant heap'' hdone
    cases hcreate.symm.trans hdone
    rw [(hgranted hgrant).2 rfl]
    exact NoTrace.refl

/-! ## A full heap -/

/-- A timer for each slot of a new heap. -/
def sixteenCalls : List (Call Nat Nat) := List.replicate 16 (.act (.create true true 0 1 0 0))

def fullHeap : timer_heap Nat Nat := (sixteenCalls.foldlM step? newHeap).get (by decide +kernel)

theorem full_run : Run Returned newHeap sixteenCalls fullHeap :=
  Run.of_foldlM returned_of_step? (Option.some_get _).symm

theorem create_fails_cleanly_sample :
    (∀ heap', create_timer false false 0 fullHeap 1 (some 0) 0 = .done (heap', none) → NoTrace fullHeap heap') ↔
      Granted fullHeap false false :=
  create_fails_cleanly_iff (show timer_heap_create true true 16 = some newHeap from rfl) full_run (by decide) 0 0

/-- When the 17th slot is refused, the new timer is counted but is nowhere. -/
theorem timer_lost : timer_heap_create true true 16 = some newHeap ∧
    Run Returned newHeap sixteenCalls fullHeap ∧
    ∃ heap', create_timer true false 0 fullHeap 1 (some 0) 0 = .done (heap', none) ∧
      heap'.allocs = 17 ∧ heap'.now = 16 ∧ heap'.size = 0 ∧ ¬ NoTrace fullHeap heap' := by
  refine ⟨rfl, full_run, _, rfl, rfl, rfl, rfl, ?_⟩
  intro h
  exact absurd h.allocs (by decide +kernel)

end Akio.Timer
