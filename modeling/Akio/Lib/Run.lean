import Mathlib.Logic.Basic
import Mathlib.Tactic.Basic

/-!
# Runs

A run is a sequence of calls that each returned. `Run.invariant` is the rule for what every call
keeps, and `Run.history` for what relates the state to the calls so far.
-/

namespace Akio

/-- The calls of `calls`, in order, lead from `s` to `t`. -/
inductive Run {σ ι : Type} (step : σ → ι → σ → Prop) (s : σ) : List ι → σ → Prop where
  | nil : Run step s [] s
  | snoc {calls : List ι} {t u : σ} {call : ι} :
      Run step s calls t → step t call u → Run step s (calls ++ [call]) u

namespace Run

variable {σ ι : Type} {step : σ → ι → σ → Prop} {s : σ}

/-- What holds at the start and is kept by each call holds after the run. -/
theorem invariant {P : σ → Prop} (hstep : ∀ t call u, P t → step t call u → P u)
    {calls : List ι} {t : σ} (h : Run step s calls t) (hs : P s) : P t := by
  induction h with
  | nil => exact hs
  | snoc _ hcall ih => exact hstep _ _ _ ih hcall

/-- The same, for a property of the calls so far and the state they lead to. -/
theorem history {P : List ι → σ → Prop} (hnil : P [] s)
    (hstep : ∀ calls t call u, Run step s calls t → P calls t → step t call u → P (calls ++ [call]) u)
    {calls : List ι} {t : σ} (h : Run step s calls t) : P calls t := by
  induction h with
  | nil => exact hnil
  | snoc hrun hcall ih => exact hstep _ _ _ _ hrun ih hcall

theorem mono {step' : σ → ι → σ → Prop} (hstep : ∀ t call u, step t call u → step' t call u)
    {calls : List ι} {t : σ} (h : Run step s calls t) : Run step' s calls t := by
  induction h with
  | nil => exact nil
  | snoc _ hcall ih => exact ih.snoc (hstep _ _ _ hcall)

theorem map {κ : Type} {step' : σ → κ → σ → Prop} {g : ι → κ} (hstep : ∀ t call u, step t call u → step' t (g call) u)
    {calls : List ι} {t : σ} (h : Run step s calls t) : Run step' s (calls.map g) t := by
  induction h with
  | nil => exact nil
  | snoc _ hcall ih =>
    rw [List.map_append]
    exact ih.snoc (hstep _ _ _ hcall)

theorem trans {calls : List ι} {t u : σ} {calls' : List ι} (h : Run step s calls t)
    (h' : Run step t calls' u) : Run step s (calls ++ calls') u := by
  induction h' with
  | nil => simpa using h
  | snoc _ hcall ih =>
    rw [← List.append_assoc]
    exact ih.snoc hcall

theorem nil_iff {t : σ} : Run step s [] t ↔ s = t := by
  constructor
  · intro h
    generalize hall : ([] : List ι) = all at h
    cases h with
    | nil => rfl
    | snoc => exact absurd hall.symm (List.append_ne_nil_of_right_ne_nil _ (List.cons_ne_nil _ _))
  · rintro rfl
    exact nil

theorem cons_iff {call : ι} {calls : List ι} {t : σ} :
    Run step s (call :: calls) t ↔ ∃ u, step s call u ∧ Run step u calls t := by
  constructor
  · intro h
    generalize hall : call :: calls = all at h
    induction h generalizing calls with
    | nil => cases hall
    | @snoc all t u last hrun hlast ih =>
      cases all with
      | nil =>
        obtain ⟨rfl, rfl⟩ := List.cons.inj hall
        obtain rfl := nil_iff.mp hrun
        exact ⟨u, hlast, nil⟩
      | cons first all =>
        obtain ⟨rfl, rfl⟩ := List.cons.inj hall
        obtain ⟨v, hfirst, hrest⟩ := ih rfl
        exact ⟨v, hfirst, hrest.snoc hlast⟩
  · rintro ⟨u, hfirst, hrest⟩
    exact (nil.snoc hfirst).trans hrest

theorem of_foldlM {f : σ → ι → Option σ} (hf : ∀ t call u, f t call = some u → step t call u)
    {calls : List ι} {t : σ} (h : calls.foldlM f s = some t) : Run step s calls t := by
  induction calls generalizing s with
  | nil =>
    obtain rfl := Option.some.inj h
    exact nil
  | cons call calls ih =>
    obtain ⟨u, hu, ht⟩ := Option.bind_eq_some_iff.mp h
    exact (nil.snoc (hf s call u hu)).trans (ih ht)

end Run

end Akio
