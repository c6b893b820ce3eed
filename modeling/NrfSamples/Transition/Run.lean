/-
# Guarded machines and what holds along their runs

A machine has initial states and a step that is `none` where the action is not
possible.  A run is a list of actions; it stops at the first action that is not
possible.  `Always P s as` says that `P` holds in every state the run reaches,
`Meets ok s as` that every step it takes satisfies `ok`, a condition on the
state before the step and the action.

`always_of_meets` is the invariant rule for runs whose steps are restricted;
`always_iff_meets` is the rule for a condition that is exact, one whose failure
breaks the property at once; `always_of_refines` is the rule without a
restriction, for a machine that refines a relation with an invariant.
-/

import Mathlib.Data.List.Basic

namespace NrfSamples
namespace Transition

/-- Initial states and a guarded step. -/
structure Machine (σ α : Type*) where
  init : σ → Prop
  step : σ → α → Option σ

variable {σ α : Type*} (M : Machine σ α)

/-- `P` in every state the run `as` reaches from `s`, the first one included. -/
def Machine.Always (P : σ → Prop) : σ → List α → Prop
  | s, [] => P s
  | s, a :: as => P s ∧ ∀ t, M.step s a = some t → Machine.Always P t as

/-- Every step the run `as` takes from `s` satisfies `ok`. -/
def Machine.Meets (ok : σ → α → Prop) : σ → List α → Prop
  | _, [] => True
  | s, a :: as => ∀ t, M.step s a = some t → ok s a ∧ Machine.Meets ok t as

variable {M}

theorem Machine.Always.head {P : σ → Prop} {s : σ} {as : List α} (h : M.Always P s as) : P s := by
  cases as with
  | nil => exact h
  | cons a as => exact h.1

/-- **The invariant rule for restricted runs.**  An invariant that implies `P`
and survives every step satisfying `ok` gives `P` along every run whose steps
all satisfy `ok`. -/
theorem Machine.always_of_meets {P Inv : σ → Prop} {ok : σ → α → Prop}
    (hP : ∀ s, Inv s → P s)
    (hstep : ∀ s a t, Inv s → ok s a → M.step s a = some t → Inv t) :
    ∀ {as : List α} {s : σ}, Inv s → M.Meets ok s as → M.Always P s as
  | [], s, hs, _ => hP s hs
  | a :: _, s, hs, hm => ⟨hP s hs, fun t ht =>
      Machine.always_of_meets hP hstep (hstep s a t hs (hm t ht).1 ht) (hm t ht).2⟩

/-- **The rule for an exact condition.**  If moreover a step that fails `ok`
ends in a state without `P`, then `P` holds along a run exactly when all its
steps satisfy `ok`. -/
theorem Machine.always_iff_meets {P Inv : σ → Prop} {ok : σ → α → Prop}
    (hP : ∀ s, Inv s → P s)
    (hstep : ∀ s a t, Inv s → ok s a → M.step s a = some t → Inv t)
    (hbreak : ∀ s a t, Inv s → ¬ ok s a → M.step s a = some t → ¬ P t)
    {as : List α} {s : σ} (hs : Inv s) : M.Always P s as ↔ M.Meets ok s as := by
  constructor
  · intro h
    induction as generalizing s with
    | nil => trivial
    | cons a as ih =>
      intro t ht
      have hok : ok s a := by
        by_contra hno
        exact hbreak s a t hs hno ht (h.2 t ht).head
      exact ⟨hok, ih (hstep s a t hs hok ht) (h.2 t ht)⟩
  · exact Machine.always_of_meets hP hstep hs

/-- **The rule for refinements.**  Every step of the machine is a step of `R`
between the states that `f` abstracts; an invariant of `R` that implies `P` gives
`P` along every run. -/
theorem Machine.always_of_refines {τ : Type*} {R : τ → τ → Prop} {f : σ → τ} {Inv : τ → Prop}
    {P : σ → Prop} (hrefines : ∀ s a t, M.step s a = some t → R (f s) (f t))
    (hstep : ∀ x y, Inv x → R x y → Inv y) (hP : ∀ s, Inv (f s) → P s) :
    ∀ {as : List α} {s : σ}, Inv (f s) → M.Always P s as
  | [], s, hs => hP s hs
  | a :: _, s, hs => ⟨hP s hs, fun t ht =>
      Machine.always_of_refines hrefines hstep hP (hstep _ _ hs (hrefines s a t ht))⟩

end Transition
end NrfSamples
