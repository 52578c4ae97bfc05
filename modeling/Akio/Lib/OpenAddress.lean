import Mathlib.Order.Nat
import Mathlib.Order.Basic
import Mathlib.Tactic.Basic

/-!
# Open addressing

A table of slots, and for each key a probe path of slot numbers. A search follows the path of its key
to the first slot of some kind. `NoGap` is what makes a search that stops at a slot never used
conclusive: no such slot lies before a live key on the key's own path.
-/

namespace Akio.OpenAddress

inductive Slot (K V : Type) where
  | never
  | deleted
  | live (key : K) (value : V)
deriving DecidableEq

namespace Slot

variable {K V : Type}

def isNever : Slot K V → Bool
  | never => true
  | _ => false

def isLive : Slot K V → Bool
  | live .. => true
  | _ => false

/-- The slot is live under a key that `eq` accepts. -/
def holds (eq : K → Bool) : Slot K V → Bool
  | live k _ => eq k
  | _ => false

end Slot

variable {K V : Type} {path : K → Nat → Nat} {t : List (Slot K V)} {k k' : K} {v w : V}
  {s : Slot K V} {p q : Slot K V → Bool} {i j n m : Nat}

/-- The slots before number `n` on the path are slots of the table without `p`. -/
def Passes (t : List (Slot K V)) (p : Slot K V → Bool) (path : Nat → Nat) (n : Nat) : Prop :=
  ∀ j < n, ∃ s, t[path j]? = some s ∧ p s = false

/-- The search for `p` along the path ends at number `n`, in the slot `s`. -/
structure Stops (t : List (Slot K V)) (p : Slot K V → Bool) (path : Nat → Nat) (n : Nat)
    (s : Slot K V) : Prop where
  passes : Passes t p path n
  slot : t[path n]? = some s
  found : p s

/-- The key is live in the table, with this value. -/
def LiveIn (t : List (Slot K V)) (k : K) (v : V) : Prop := ∃ i : Nat, t[i]? = some (Slot.live k v)

/-- No slot before a live key on its own path was never used. -/
def NoGap (path : K → Nat → Nat) (t : List (Slot K V)) : Prop :=
  ∀ (i : Nat) k v, t[i]? = some (Slot.live k v) → ∃ n, path k n = i ∧ Passes t Slot.isNever (path k) n

/-- No key is live in two slots. -/
def Unique (t : List (Slot K V)) : Prop :=
  ∀ (i j : Nat) k v w, t[i]? = some (Slot.live k v) → t[j]? = some (Slot.live k w) → i = j

/-! ## Searches -/

theorem Stops.unique {path : Nat → Nat} {s' : Slot K V} (h : Stops t p path n s)
    (h' : Stops t p path m s') : n = m ∧ s = s' := by
  have hnm : n = m := by
    rcases Nat.lt_trichotomy n m with hlt | rfl | hlt
    · obtain ⟨x, hx, hpx⟩ := h'.passes n hlt
      obtain rfl := Option.some.inj (hx.symm.trans h.slot)
      rw [h.found] at hpx
      cases hpx
    · rfl
    · obtain ⟨x, hx, hpx⟩ := h.passes m hlt
      obtain rfl := Option.some.inj (hx.symm.trans h'.slot)
      rw [h'.found] at hpx
      cases hpx
  subst hnm
  exact ⟨rfl, Option.some.inj (h.slot.symm.trans h'.slot)⟩

theorem Passes.imp {path : Nat → Nat} (h : Passes t p path n) (hpq : ∀ s, q s → p s) :
    Passes t q path n := by
  intro j hj
  obtain ⟨s, hs, hps⟩ := h j hj
  refine ⟨s, hs, ?_⟩
  by_contra hq
  rw [hpq s (by simpa using hq)] at hps
  cases hps

/-- A search that meets a slot with `p`, and stays in the table until then, ends there or before. -/
theorem exists_stops {path : Nat → Nat} (hin : ∀ j < n, path j < t.length)
    (hs : t[path n]? = some s) (hp : p s) : ∃ m ≤ n, ∃ s', Stops t p path m s' := by
  induction n using Nat.strongRecOn generalizing s with
  | ind n ih =>
    by_cases hpass : Passes t p path n
    · exact ⟨n, Nat.le_refl n, s, hpass, hs, hp⟩
    · simp only [Passes, not_forall] at hpass
      obtain ⟨j, hj, hno⟩ := hpass
      have hlt := hin j hj
      have hget := List.getElem?_eq_getElem hlt
      have hpj : p t[path j] := by
        by_contra hc
        exact hno ⟨_, hget, by simpa using hc⟩
      obtain ⟨m, hm, hstop⟩ := ih j hj (fun i hi => hin i (by omega)) hget hpj
      exact ⟨m, by omega, hstop⟩

theorem NoGap.absent {eq : K → Bool} (heq : eq k) (h : NoGap path t)
    (hpass : Passes t (Slot.holds eq) (path k) n)
    (hn : t[path k n]? = some Slot.never) : ¬ LiveIn t k v := by
  rintro ⟨i, hi⟩
  obtain ⟨m, rfl, hm⟩ := h i k v hi
  rcases Nat.lt_trichotomy n m with hlt | rfl | hlt
  · obtain ⟨x, hx, hpx⟩ := hm n hlt
    obtain rfl := Option.some.inj (hx.symm.trans hn)
    cases hpx
  · rw [hi] at hn
    cases hn
  · obtain ⟨x, hx, hpx⟩ := hpass m hlt
    obtain rfl := Option.some.inj (hx.symm.trans hi)
    simp [Slot.holds, heq] at hpx

/-- Where a search ends at a slot never used or at a slot of the key, the key is nowhere else. -/
theorem NoGap.only {eq : K → Bool} (heq : eq k) (h : NoGap path t) (hunique : Unique t)
    (hpass : Passes t (Slot.holds eq) (path k) n)
    (hn : t[path k n]? = some Slot.never ∨ ∃ v, t[path k n]? = some (Slot.live k v)) {w : V}
    (hi : t[i]? = some (Slot.live k w)) : i = path k n := by
  rcases hn with hn | ⟨v, hn⟩
  · exact absurd ⟨i, hi⟩ (h.absent heq hpass hn)
  · exact hunique _ _ _ _ _ hi hn

/-! ## Writes -/

theorem Passes.set_used {path : Nat → Nat} (h : Passes t Slot.isNever path n) (hs : s.isNever = false) :
    Passes (t.set i s) Slot.isNever path n := by
  intro j hj
  obtain ⟨x, hx, hpx⟩ := h j hj
  by_cases hij : i = path j
  · refine ⟨s, ?_, hs⟩
    have hlt := (List.getElem?_eq_some_iff.mp hx).1
    rw [hij, List.getElem?_set_self hlt]
  · exact ⟨x, by rwa [List.getElem?_set_ne hij], hpx⟩

theorem NoGap.fill (h : NoGap path t) (hpass : Passes t Slot.isNever (path k) n) :
    NoGap path (t.set (path k n) (.live k v)) := by
  intro i k' v' hi
  by_cases hin : path k n = i
  · obtain ⟨hlt, -⟩ := List.getElem?_eq_some_iff.mp hi
    rw [List.length_set] at hlt
    rw [hin, List.getElem?_set_self hlt] at hi
    obtain ⟨rfl, -⟩ : k = k' ∧ v = v' := by simpa using hi
    exact ⟨n, hin, hpass.set_used rfl⟩
  · rw [List.getElem?_set_ne hin] at hi
    obtain ⟨m, hm, hpass'⟩ := h i k' v' hi
    exact ⟨m, hm, hpass'.set_used rfl⟩

theorem NoGap.remove (h : NoGap path t) : NoGap path (t.set i .deleted) := by
  intro j k v hj
  by_cases hij : i = j
  · obtain ⟨hlt, -⟩ := List.getElem?_eq_some_iff.mp hj
    rw [List.length_set] at hlt
    rw [hij, List.getElem?_set_self hlt] at hj
    cases hj
  · rw [List.getElem?_set_ne hij] at hj
    obtain ⟨m, hm, hpass⟩ := h j k v hj
    exact ⟨m, hm, hpass.set_used rfl⟩

theorem Unique.fill (h : Unique t) (hother : ∀ (j : Nat) w, t[j]? = some (Slot.live k w) → j = i) :
    Unique (t.set i (.live k v)) := by
  intro a b k' va vb ha hb
  have hcase : ∀ (c : Nat) vc, (t.set i (.live k v))[c]? = some (Slot.live k' vc) →
      (c = i ∧ k' = k) ∨ (c ≠ i ∧ t[c]? = some (Slot.live k' vc)) := by
    intro c vc hc
    by_cases hic : i = c
    · obtain ⟨hlt, -⟩ := List.getElem?_eq_some_iff.mp hc
      rw [List.length_set] at hlt
      rw [hic, List.getElem?_set_self hlt] at hc
      obtain ⟨rfl, -⟩ : k = k' ∧ v = vc := by simpa using hc
      exact Or.inl ⟨hic.symm, rfl⟩
    · rw [List.getElem?_set_ne hic] at hc
      exact Or.inr ⟨Ne.symm hic, hc⟩
  rcases hcase a va ha with ⟨hai, hk⟩ | ⟨hai, ha'⟩ <;> rcases hcase b vb hb with ⟨hbi, hk'⟩ | ⟨hbi, hb'⟩
  · rw [hai, hbi]
  · rw [hk] at hb'
    exact absurd (hother b vb hb') hbi
  · rw [hk'] at ha'
    exact absurd (hother a va ha') hai
  · exact h a b k' va vb ha' hb'

theorem liveIn_fill (hi : i < t.length) (hover : ∀ k' w, t[i]? = some (Slot.live k' w) → k' = k)
    (hother : ∀ (j : Nat) w, t[j]? = some (Slot.live k w) → j = i) :
    LiveIn (t.set i (Slot.live k v)) k' w ↔ (k' = k ∧ w = v) ∨ (k' ≠ k ∧ LiveIn t k' w) := by
  constructor
  · rintro ⟨j, hj⟩
    by_cases hij : i = j
    · rw [← hij, List.getElem?_set_self hi] at hj
      obtain ⟨rfl, rfl⟩ : k = k' ∧ v = w := by simpa using hj
      exact Or.inl ⟨rfl, rfl⟩
    · rw [List.getElem?_set_ne hij] at hj
      refine Or.inr ⟨?_, j, hj⟩
      rintro rfl
      exact hij (hother j w hj).symm
  · rintro (⟨rfl, rfl⟩ | ⟨hk, j, hj⟩)
    · exact ⟨i, List.getElem?_set_self hi⟩
    · refine ⟨j, ?_⟩
      rwa [List.getElem?_set_ne]
      rintro rfl
      exact hk (hover k' w hj)

theorem Unique.remove (h : Unique t) : Unique (t.set i .deleted) := by
  have hcase : ∀ (c : Nat) k vc, (t.set i .deleted)[c]? = some (Slot.live k vc) → t[c]? = some (Slot.live k vc) := by
    intro c k vc hc
    by_cases hic : i = c
    · obtain ⟨hlt, -⟩ := List.getElem?_eq_some_iff.mp hc
      rw [List.length_set] at hlt
      rw [hic, List.getElem?_set_self hlt] at hc
      cases hc
    · rwa [List.getElem?_set_ne hic] at hc
  exact fun a b k va vb ha hb => h a b k va vb (hcase a k va ha) (hcase b k vb hb)

end Akio.OpenAddress
