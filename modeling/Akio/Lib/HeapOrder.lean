import Mathlib.Logic.Equiv.Basic
import Mathlib.Order.Lattice

/-!
# Binary heaps as keys of slots

`key i` is the key in slot `i`. The two hole invariants say what may be wrong at one slot `h` while its
content is moved up or down. A move is a swap with the parent, or with the least child.
-/

namespace Akio.HeapOrder

variable {α : Type} [LinearOrder α] {key key' : Nat → α} {n h c i : Nat}

def parent (i : Nat) : Nat := (i - 1) / 2

/-- No slot has a lesser key than its parent. -/
def Ordered (key : Nat → α) (n : Nat) : Prop := ∀ i, 0 < i → i < n → key (parent i) ≤ key i

/-- The parent of `h` has no greater key than the children of `h`. -/
def Around (key : Nat → α) (n h : Nat) : Prop :=
  0 < h → ∀ i, 0 < i → i < n → parent i = h → key (parent h) ≤ key i

/-- Only the slot `h` and its parent may be out of order. -/
structure UpHole (key : Nat → α) (n h : Nat) : Prop where
  edges : ∀ i, 0 < i → i < n → i ≠ h → key (parent i) ≤ key i
  around : Around key n h

/-- Only the slot `h` and its children may be out of order. -/
structure DownHole (key : Nat → α) (n h : Nat) : Prop where
  edges : ∀ i, 0 < i → i < n → parent i ≠ h → key (parent i) ≤ key i
  around : Around key n h

theorem parent_lt (hi : 0 < i) : parent i < i := by
  unfold parent
  omega

theorem Ordered.root_le (ho : Ordered key n) (hi : i < n) : key 0 ≤ key i := by
  induction i using Nat.strongRecOn with
  | ind i ih =>
    rcases Nat.eq_zero_or_pos i with rfl | hpos
    · exact le_refl _
    · have hlt := parent_lt hpos
      exact (ih (parent i) hlt (by omega)).trans (ho i hpos hi)

theorem Ordered.around (ho : Ordered key n) (hh : h < n) : Around key n h := by
  intro hpos i hi hin hpar
  have hup := ho i hi hin
  rw [hpar] at hup
  exact (ho h hpos hh).trans hup

/-! ## Moving up -/

theorem UpHole.done (hu : UpHole key n h) (hle : 0 < h → key (parent h) ≤ key h) : Ordered key n := by
  intro i hi hin
  by_cases hih : i = h
  · subst hih
    exact hle hi
  · exact hu.edges i hi hin hih

theorem UpHole.move (hu : UpHole key n h) (hpos : 0 < h) (hh : h < n) (hlt : key h < key (parent h)) :
    UpHole (fun i => key (Equiv.swap h (parent h) i)) n (parent h) := by
  have hph := parent_lt hpos
  refine ⟨?_, ?_⟩
  · intro i hi hin hne
    by_cases hih : i = h
    · subst hih
      rw [Equiv.swap_apply_right, Equiv.swap_apply_left]
      exact le_of_lt hlt
    · rw [Equiv.swap_apply_of_ne_of_ne hih hne]
      by_cases hp1 : parent i = h
      · rw [hp1, Equiv.swap_apply_left]
        exact hu.around hpos i hi hin hp1
      · by_cases hp2 : parent i = parent h
        · rw [hp2, Equiv.swap_apply_right]
          exact (le_of_lt hlt).trans (hp2 ▸ hu.edges i hi hin hih)
        · rw [Equiv.swap_apply_of_ne_of_ne hp1 hp2]
          exact hu.edges i hi hin hih
  · intro hppos i hi hin hpar
    have hpp := parent_lt hppos
    show key _ ≤ key _
    rw [Equiv.swap_apply_of_ne_of_ne (by omega) (by omega)]
    have hup := hu.edges (parent h) hppos (by omega) (by omega)
    by_cases hih : i = h
    · rw [hih, Equiv.swap_apply_left]
      exact hup
    · have hne : i ≠ parent h := by
        rintro rfl
        omega
      rw [Equiv.swap_apply_of_ne_of_ne hih hne]
      exact hup.trans (hpar ▸ hu.edges i hi hin hih)

/-! ## Moving down -/

theorem DownHole.done (hd : DownHole key n h) (hle : ∀ i, 0 < i → i < n → parent i = h → key h ≤ key i) :
    Ordered key n := by
  intro i hi hin
  by_cases hp : parent i = h
  · rw [hp]
    exact hle i hi hin hp
  · exact hd.edges i hi hin hp

theorem DownHole.move (hd : DownHole key n h) (hc : 0 < c) (hcn : c < n) (hpar : parent c = h)
    (hleast : ∀ i, 0 < i → i < n → parent i = h → key c ≤ key i) (hlt : key c < key h) :
    DownHole (fun i => key (Equiv.swap h c i)) n c := by
  have hch : h < c := hpar ▸ parent_lt hc
  refine ⟨?_, ?_⟩
  · intro i hi hin hp
    by_cases hph : parent i = h
    · rw [hph, Equiv.swap_apply_left]
      by_cases hic : i = c
      · rw [hic, Equiv.swap_apply_right]
        exact le_of_lt hlt
      · have hih : i ≠ h := by
          have := parent_lt hi
          omega
        rw [Equiv.swap_apply_of_ne_of_ne hih hic]
        exact hleast i hi hin hph
    · have hic : i ≠ c := by
        rintro rfl
        exact hph hpar
      rw [Equiv.swap_apply_of_ne_of_ne hph hp]
      by_cases hih : i = h
      · subst hih
        rw [Equiv.swap_apply_left]
        exact hd.around hi c hc hcn hpar
      · rw [Equiv.swap_apply_of_ne_of_ne hih hic]
        exact hd.edges i hi hin hph
  · intro _ i hi hin hpi
    have hci := hpi ▸ parent_lt hi
    show key _ ≤ key _
    rw [hpar, Equiv.swap_apply_left, Equiv.swap_apply_of_ne_of_ne (by omega) (by omega)]
    have := hd.edges i hi hin (by omega)
    rwa [hpi] at this

/-! ## A new content in one slot -/

theorem Ordered.replace_up (ho : Ordered key n) (hh : h < n) (hsame : ∀ i < n, i ≠ h → key' i = key i)
    (hpos : 0 < h) (hlt : key' h < key' (parent h)) : UpHole key' n h := by
  have hph := parent_lt hpos
  have haround := ho.around hh
  refine ⟨?_, ?_⟩
  · intro i hi hin hih
    rw [hsame i hin hih]
    by_cases hp : parent i = h
    · rw [hp]
      rw [hsame (parent h) (by omega) (by omega)] at hlt
      exact (le_of_lt hlt).trans (haround hpos i hi hin hp)
    · have := parent_lt hi
      rw [hsame (parent i) (by omega) hp]
      exact ho i hi hin
  · intro _ i hi hin hp
    have := hp ▸ parent_lt hi
    rw [hsame i hin (by omega), hsame (parent h) (by omega) (by omega)]
    exact haround hpos i hi hin hp

theorem Ordered.replace_down (ho : Ordered key n) (hh : h < n) (hsame : ∀ i < n, i ≠ h → key' i = key i)
    (hle : 0 < h → key' (parent h) ≤ key' h) : DownHole key' n h := by
  have haround := ho.around hh
  refine ⟨?_, ?_⟩
  · intro i hi hin hp
    have := parent_lt hi
    by_cases hih : i = h
    · subst hih
      exact hle hi
    · rw [hsame i hin hih, hsame (parent i) (by omega) hp]
      exact ho i hi hin
  · intro hpos i hi hin hp
    have := hp ▸ parent_lt hi
    have := parent_lt hpos
    rw [hsame i hin (by omega), hsame (parent h) (by omega) (by omega)]
    exact haround hpos i hi hin hp

theorem Ordered.push (ho : Ordered key n) (hsame : ∀ i < n, key' i = key i) : UpHole key' (n + 1) n := by
  refine ⟨?_, ?_⟩
  · intro i hi hin hne
    have := parent_lt hi
    rw [hsame i (by omega), hsame (parent i) (by omega)]
    exact ho i hi (by omega)
  · intro _ i hi hin hp
    have := parent_lt hi
    omega

end Akio.HeapOrder
