import Mathlib.Data.Set.Lattice

/-!
# Filters by positions

Each key has a set of positions. Adding a key lights its positions, and a key is reported when all of its
positions are lit.
-/

namespace Akio.Filter

variable {κ π : Type} {probes : κ → Set π} {keys keys' : Set κ} {key : κ} {p : π}

def lit (probes : κ → Set π) (keys : Set κ) : Set π := ⋃ key ∈ keys, probes key

def Reports (probes : κ → Set π) (keys : Set κ) (key : κ) : Prop := probes key ⊆ lit probes keys

theorem mem_lit : p ∈ lit probes keys ↔ ∃ key ∈ keys, p ∈ probes key := by simp [lit]

@[simp] theorem lit_empty : lit probes ∅ = ∅ := by simp [lit]

theorem lit_insert : lit probes (insert key keys) = probes key ∪ lit probes keys := by
  unfold lit
  exact Set.biUnion_insert key keys probes

theorem lit_mono (h : keys ⊆ keys') : lit probes keys ⊆ lit probes keys' :=
  Set.biUnion_subset_biUnion_left h

/-- No key that was added is missed. -/
theorem reports_of_mem (h : key ∈ keys) : Reports probes keys key := Set.subset_biUnion_of_mem h

theorem Reports.mono (h : Reports probes keys key) (hsub : keys ⊆ keys') : Reports probes keys' key :=
  h.trans (lit_mono hsub)

end Akio.Filter
