import Akio.Lib.Store
import Mathlib.Data.List.Nodup

/-!
# Linked segments

`Chain link a l b`: following `link` from the pointer `a` visits exactly the addresses of `l`, in
order, and then gives `b`.
-/

namespace Akio

def Chain (link : Nat → Ptr) : Ptr → List Nat → Ptr → Prop
  | a, [], b => a = b
  | a, p :: l, b => a = some p ∧ Chain link (link p) l b

namespace Chain

variable {link link' : Nat → Ptr} {a b c : Ptr} {l l₁ l₂ : List Nat} {p q : Nat}

@[simp] theorem nil_iff : Chain link a [] b ↔ a = b := Iff.rfl

@[simp] theorem cons_iff : Chain link a (p :: l) b ↔ a = some p ∧ Chain link (link p) l b := Iff.rfl

theorem append_iff : Chain link a (l₁ ++ l₂) b ↔ ∃ c, Chain link a l₁ c ∧ Chain link c l₂ b := by
  induction l₁ generalizing a with
  | nil => simp
  | cons p l₁ ih => simp [ih, and_assoc]

theorem snoc_iff : Chain link a (l ++ [p]) b ↔ Chain link a l (some p) ∧ link p = b := by
  rw [append_iff]
  constructor
  · rintro ⟨c, h, rfl, hp⟩
    exact ⟨h, hp⟩
  · rintro ⟨h, hp⟩
    exact ⟨some p, h, rfl, hp⟩

theorem congr (h : ∀ p ∈ l, link' p = link p) (hc : Chain link a l b) : Chain link' a l b := by
  induction l generalizing a with
  | nil => exact hc
  | cons p l ih =>
    obtain ⟨ha, hl⟩ := hc
    refine ⟨ha, ?_⟩
    rw [h p List.mem_cons_self]
    exact ih (fun q hq => h q (List.mem_cons_of_mem p hq)) hl

theorem update (hp : p ∉ l) (x : Ptr) (hc : Chain link a l b) :
    Chain (Function.update link p x) a l b := by
  apply congr _ hc
  intro q hq
  exact Function.update_of_ne (fun h : q = p => hp (h ▸ hq)) _ _

theorem update_last (hp : p ∉ l) (x : Ptr) (hc : Chain link a (l ++ [p]) b) :
    Chain (Function.update link p x) a (l ++ [p]) x := by
  rw [snoc_iff] at hc ⊢
  exact ⟨hc.1.update hp x, Function.update_self _ _ _⟩

theorem head_eq (hc : Chain link a l none) : a = l.head? := by
  cases l with
  | nil => exact hc
  | cons p l => exact hc.1

theorem getLastD_link (hc : Chain link (link p) l b) : link (l.getLastD p) = b := by
  induction l generalizing p with
  | nil => exact hc
  | cons q l ih =>
    obtain ⟨-, hl⟩ := hc
    rw [List.getLastD_cons]
    exact ih hl

theorem redirect {x : Ptr} (hc : Chain link a l c) (hlast : ∀ q, l.getLast? = some q → link' q = x)
    (hrest : ∀ q ∈ l, l.getLast? ≠ some q → link' q = link q) (hnd : l.Nodup) :
    Chain link' (if l = [] then x else a) l x := by
  rcases List.eq_nil_or_concat l with rfl | ⟨m, q, rfl⟩
  · simp
  · rw [List.concat_eq_append] at *
    rw [if_neg (by simp), snoc_iff]
    refine ⟨?_, hlast q (by simp)⟩
    apply congr _ (snoc_iff.mp hc).1
    intro y hy
    have hyq : y ≠ q := by
      rintro rfl
      exact (List.nodup_append.mp hnd).2.2 y hy y (List.mem_singleton_self y) rfl
    exact hrest y (by simp [hy]) (by simpa using hyq.symm)

theorem behind (hc : Chain link a l₂ none) (hnd : (l₁ ++ l₂).Nodup)
    (hrest : ∀ q ∈ l₁ ++ l₂, l₁.getLast? ≠ some q → link' q = link q) : Chain link' a l₂ none := by
  apply congr _ hc
  intro q hq
  apply hrest q (List.mem_append_right l₁ hq)
  intro hlast
  exact (List.nodup_append.mp hnd).2.2 q (List.mem_of_getLast? hlast) q hq rfl

theorem insert (hc : Chain link a (l₁ ++ l₂) none) (hp : link' p = l₂.head?)
    (hlast : ∀ q, l₁.getLast? = some q → link' q = some p)
    (hrest : ∀ q ∈ l₁ ++ l₂, l₁.getLast? ≠ some q → link' q = link q) (hnd : (l₁ ++ l₂).Nodup) :
    Chain link' (if l₁ = [] then some p else a) (l₁ ++ p :: l₂) none := by
  obtain ⟨c, h₁, h₂⟩ := append_iff.mp hc
  rw [append_iff]
  refine ⟨some p, ?_, rfl, ?_⟩
  · apply redirect h₁ hlast _ (List.nodup_append.mp hnd).1
    exact fun q hq => hrest q (List.mem_append_left l₂ hq)
  · rw [hp, ← h₂.head_eq]
    exact behind h₂ hnd hrest

theorem erase (hc : Chain link a (l₁ ++ p :: l₂) none)
    (hlast : ∀ q, l₁.getLast? = some q → link' q = link p)
    (hrest : ∀ q ∈ l₁ ++ l₂, l₁.getLast? ≠ some q → link' q = link q)
    (hnd : (l₁ ++ l₂).Nodup) : Chain link' (if l₁ = [] then link p else a) (l₁ ++ l₂) none := by
  obtain ⟨c, h₁, rfl, h₂⟩ := append_iff.mp hc
  rw [append_iff]
  refine ⟨link p, ?_, behind h₂ hnd hrest⟩
  apply redirect h₁ hlast _ (List.nodup_append.mp hnd).1
  exact fun q hq => hrest q (List.mem_append_left l₂ hq)

theorem unique (h₁ : Chain link a l₁ none) (h₂ : Chain link a l₂ none) : l₁ = l₂ := by
  induction l₁ generalizing a l₂ with
  | nil =>
    cases l₂ with
    | nil => rfl
    | cons q l₂ => rw [nil_iff.mp h₁] at h₂; cases h₂.1
  | cons p l₁ ih =>
    cases l₂ with
    | nil => rw [nil_iff.mp h₂] at h₁; cases h₁.1
    | cons q l₂ =>
      obtain rfl : p = q := Option.some.inj (h₁.1.symm.trans h₂.1)
      rw [ih h₁.2 h₂.2]

end Chain

/-- The first `n` nodes met from `a`. -/
def walk (link : Nat → Ptr) : Nat → Ptr → List Nat
  | 0, _ => []
  | _ + 1, none => []
  | n + 1, some p => p :: walk link n (link p)

theorem Chain.walk_of_le {link : Nat → Ptr} {a : Ptr} {l : List Nat} {n : Nat} (h : Chain link a l none)
    (hn : l.length ≤ n) : walk link n a = l := by
  induction l generalizing a n with
  | nil =>
    obtain rfl := h
    cases n <;> rfl
  | cons p l ih =>
    obtain ⟨rfl, hl⟩ := h
    obtain ⟨k, rfl⟩ : ∃ k, n = k + 1 := ⟨n - 1, by rw [List.length_cons] at hn; omega⟩
    rw [List.length_cons] at hn
    unfold walk
    rw [ih hl (by omega)]

end Akio
