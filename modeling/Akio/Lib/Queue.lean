import Akio.Lib.Chain

/-!
# Linked queues

A queue has a pointer to its first node and one to its last. The nodes leave at the front and come in at
the end. `tail` is NULL where the queue is empty.
-/

namespace Akio

structure Queue (link : Nat → Ptr) (head tail : Ptr) (l : List Nat) : Prop where
  chain : Chain link head l none
  last : tail = l.getLast?

namespace Queue

variable {link link' : Nat → Ptr} {head tail : Ptr} {l : List Nat} {p q : Nat}

theorem congr (hq : Queue link head tail l) (h : ∀ p ∈ l, link' p = link p) : Queue link' head tail l :=
  ⟨hq.chain.congr h, hq.last⟩

theorem tail_none_iff (hq : Queue link head tail l) : tail = none ↔ l = [] := by
  rw [hq.last, List.getLast?_eq_none_iff]

theorem pop (hq : Queue link head tail (p :: l)) :
    Queue link (link p) (if link p = none then none else tail) l := by
  obtain ⟨-, hchain⟩ := hq.chain
  refine ⟨hchain, ?_⟩
  rw [hchain.head_eq, hq.last]
  cases l with
  | nil => rfl
  | cons q l => simp

theorem single (hp : link p = none) : Queue link (some p) (some p) [p] := ⟨⟨rfl, hp⟩, rfl⟩

theorem push (hq : Queue link head (some q) l) (hnd : l.Nodup) (hp : p ∉ l) (hnone : link p = none) :
    Queue (Function.update link q (some p)) head (some p) (l ++ [p]) := by
  rcases List.eq_nil_or_concat l with rfl | ⟨m, r, rfl⟩
  · cases hq.last
  · rw [List.concat_eq_append] at *
    obtain rfl : q = r := by simpa using hq.last
    have hqm : q ∉ m := fun hin => (List.nodup_append.mp hnd).2.2 q hin q List.mem_cons_self rfl
    have hpq : p ≠ q := by
      rintro rfl
      exact hp (by simp)
    refine ⟨?_, by simp⟩
    rw [Chain.snoc_iff]
    refine ⟨hq.chain.update_last hqm (some p), ?_⟩
    rw [Function.update_of_ne hpq]
    exact hnone

end Queue

end Akio
