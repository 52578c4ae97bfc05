import Akio.Lib.Chain
import Mathlib.Data.List.Perm.Subperm

/-!
# Freeing what a pointer leads to

`sweep` frees the blocks of a segment one by one, and reads the pointer to the next one first. `Blocks` counts what is
not freed.
-/

namespace Akio

namespace Store

variable {α : Type} {s : Store α} {l : List Nat} {p n : Nat}

/-- `while (p) { next = p->next; free(p); p = next; }`, for a number of turns. -/
def sweep (next : α → Outcome Ptr) : Nat → Ptr → Store α → Outcome (Store α)
  | _, none, s => return s
  | 0, some _, _ => .running
  | fuel + 1, some p, s => do
    let a ← s.read (some p)
    let q ← next a
    let s ← s.free (some p)
    sweep next fuel q s

/-- Each block of the segment is freed once, and no other. -/
theorem sweep_spec {next : α → Outcome Ptr} {g : α → Ptr} {a : Ptr} {fuel : Nat}
    (hnext : ∀ p ∈ l, ∀ b, s.cell p = some b → next b = .done (g b)) (hc : Chain (s.field g none) a l none)
    (hnd : l.Nodup) (hlive : ∀ p ∈ l, s.Live p) (hfuel : l.length ≤ fuel) :
    ∃ s', s.sweep next fuel a = .done s' ∧ ∀ p, s'.cell p = if p ∈ l then none else s.cell p := by
  induction l generalizing s a fuel with
  | nil =>
    obtain rfl := hc
    refine ⟨s, ?_, fun p => (if_neg (List.not_mem_nil)).symm⟩
    cases fuel <;> rfl
  | cons q l ih =>
    obtain ⟨rfl, hl⟩ := hc
    obtain ⟨hql, hnd⟩ := List.nodup_cons.mp hnd
    obtain ⟨fuel, rfl⟩ : ∃ k, fuel = k + 1 := ⟨fuel - 1, by rw [List.length_cons] at hfuel; omega⟩
    have hq := hlive q List.mem_cons_self
    obtain ⟨b, hb⟩ := live_iff.mp hq
    have hne : ∀ p ∈ l, p ≠ q := by
      rintro p hp rfl
      exact hql hp
    have hlive' : ∀ p ∈ l, (s.drop q).Live p :=
      fun p hp => drop_live.mpr ⟨hne p hp, hlive p (List.mem_cons_of_mem q hp)⟩
    have hnext' : ∀ p ∈ l, ∀ b, (s.drop q).cell p = some b → next b = .done (g b) := by
      intro p hp b hcell
      rw [drop_cell_of_ne (hne p hp)] at hcell
      exact hnext p (List.mem_cons_of_mem q hp) b hcell
    have hc' : Chain ((s.drop q).field g none) (g b) l none := by
      have hlink : s.field g none q = g b := field_of_cell hb
      rw [field_drop, ← hlink]
      exact hl.update hql none
    have hfuel' : l.length ≤ fuel := Nat.le_of_succ_le_succ hfuel
    obtain ⟨s', hsweep, hcell⟩ := ih hnext' hc' hnd hlive' hfuel'
    refine ⟨s', ?_, fun p => ?_⟩
    · unfold sweep
      rw [read_of_cell hb, Outcome.done_bind, hnext q List.mem_cons_self b hb, Outcome.done_bind, free_live hq,
        Outcome.done_bind]
      exact hsweep
    · rw [hcell]
      by_cases hpq : p = q
      · subst hpq
        rw [if_neg hql, if_pos List.mem_cons_self, drop_cell_self]
      · rw [drop_cell_of_ne hpq]
        simp [hpq]

theorem live_swept {s' : Store α} (hcell : ∀ p, s'.cell p = if p ∈ l then none else s.cell p) :
    s'.Live p ↔ s.Live p ∧ p ∉ l := by
  unfold Live
  rw [hcell]
  split_ifs with hin <;> simp [hin]

/-! ## Counting -/

/-- There are `n` blocks. -/
def Blocks (s : Store α) (n : Nat) : Prop := ∃ l : List Nat, l.Nodup ∧ l.length = n ∧ ∀ p, s.Live p ↔ p ∈ l

theorem blocks_empty : (empty : Store α).Blocks 0 := ⟨[], List.nodup_nil, rfl, by simp⟩

theorem Blocks.congr {s' : Store α} (h : s.Blocks n) (hlive : ∀ p, s'.Live p ↔ s.Live p) : s'.Blocks n := by
  obtain ⟨l, hnd, hlen, hl⟩ := h
  exact ⟨l, hnd, hlen, fun p => (hlive p).trans (hl p)⟩

theorem Blocks.alloc {a : α} (h : s.Blocks n) : (s.alloc a).2.Blocks (n + 1) := by
  obtain ⟨l, hnd, hlen, hl⟩ := h
  refine ⟨s.next :: l, List.nodup_cons.mpr ⟨?_, hnd⟩, by simp [hlen], fun p => ?_⟩
  · exact fun hin => next_not_live ((hl s.next).mpr hin)
  · rw [alloc_live, List.mem_cons, hl]

theorem Blocks.drop (h : s.Blocks (n + 1)) (hp : s.Live p) : (s.drop p).Blocks n := by
  obtain ⟨l, hnd, hlen, hl⟩ := h
  have hin := (hl p).mp hp
  refine ⟨l.erase p, hnd.erase p, by rw [List.length_erase_of_mem hin, hlen]; rfl, fun q => ?_⟩
  rw [drop_live, hnd.mem_erase_iff, hl]

theorem Blocks.live_iff (h : s.Blocks l.length) (hnd : l.Nodup) (hlive : ∀ p ∈ l, s.Live p) (p : Nat) :
    s.Live p ↔ p ∈ l := by
  obtain ⟨l', hnd', hlen, hl⟩ := h
  have hsub : l ⊆ l' := fun q hq => (hl q).mp (hlive q hq)
  rw [hl]
  exact ((List.Nodup.subperm hnd hsub).perm_of_length_le (Nat.le_of_eq hlen)).mem_iff.symm

end Store

end Akio
