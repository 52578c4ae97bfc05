import Akio.Lib.Outcome

/-!
# Two calls that end alike

What a run of one program says of another one is shown call by call: `Alike.bind` is the rule for what follows, and
`Alike.done_iff` says what a call that returned had to return.
-/

namespace Akio

namespace Outcome

variable {α β γ δ : Type}

/-- Both calls return, and `R` holds of what they return, or none does, for the same reason. -/
inductive Alike (R : α → β → Prop) : Outcome α → Outcome β → Prop where
  | done {a : α} {b : β} (h : R a b) : Alike R (.done a) (.done b)
  | fault : Alike R .fault .fault
  | running : Alike R .running .running

theorem Alike.refl (x : Outcome α) : x.Alike Eq x := by
  cases x with
  | done a => exact .done rfl
  | fault => exact .fault
  | running => exact .running

theorem Alike.bind {R : α → β → Prop} {S : γ → δ → Prop} {x : Outcome α} {y : Outcome β} {f : α → Outcome γ}
    {g : β → Outcome δ} (h : x.Alike R y) (hf : ∀ a b, R a b → (f a).Alike S (g b)) :
    (x >>= f).Alike S (y >>= g) := by
  cases h with
  | done hr => exact hf _ _ hr
  | fault => exact .fault
  | running => exact .running

theorem Alike.same {S : γ → δ → Prop} {x : Outcome α} {f : α → Outcome γ} {g : α → Outcome δ}
    (hf : ∀ a, (f a).Alike S (g a)) : (x >>= f).Alike S (x >>= g) :=
  (refl x).bind fun a _ h => h ▸ hf a

theorem Alike.bind_left {R : α → β → Prop} {S : γ → β → Prop} {x : Outcome α} {y : Outcome β} {f : α → Outcome γ}
    (h : x.Alike R y) (hf : ∀ a b, R a b → (f a).Alike S (.done b)) : (x >>= f).Alike S y := by
  cases h with
  | done hr => exact hf _ _ hr
  | fault => exact .fault
  | running => exact .running

theorem Alike.done_iff {R : α → β → Prop} {x : Outcome α} {y : Outcome β} (h : x.Alike R y) :
    (∀ a, x = .done a → ∃ b, y = .done b ∧ R a b) ∧ ∀ b, y = .done b → ∃ a, x = .done a ∧ R a b := by
  cases h with
  | done hr => exact ⟨by rintro _ ⟨⟩; exact ⟨_, rfl, hr⟩, by rintro _ ⟨⟩; exact ⟨_, rfl, hr⟩⟩
  | fault => exact ⟨nofun, nofun⟩
  | running => exact ⟨nofun, nofun⟩

end Outcome

end Akio
