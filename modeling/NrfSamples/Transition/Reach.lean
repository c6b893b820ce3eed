/-
# What a run reaches, and what it shows

`Machine.after` is the state behind a run all of whose actions are possible,
`Machine.history` what an observer records of the steps of a run, and
`Machine.last` the state in which it stops.

`history_of_step` is the invariant rule for a record together with the state;
`exists_run_of_rank` is the rule for progress: a measure that some step can
always bring down is brought down to the goal, in no more steps than it says;
`always_of_runs` passes a property of every run on to a machine whose single
steps are runs of the first.
-/

import NrfSamples.Transition.Run

namespace NrfSamples
namespace Transition

variable {σ α β : Type*} (M : Machine σ α)

/-- The state behind the run `as`, if every action of it is possible. -/
def Machine.after : σ → List α → Option σ
  | s, [] => some s
  | s, a :: as => (M.step s a).bind fun t => Machine.after t as

/-- The state in which the run `as` stops. -/
def Machine.last : σ → List α → σ
  | s, [] => s
  | s, a :: as =>
      match M.step s a with
      | some t => Machine.last t as
      | none => s

/-- What `obs` records of the steps of the run `as`, the earliest first. -/
def Machine.history (obs : σ → α → List β) : σ → List α → List β
  | _, [] => []
  | s, a :: as =>
      match M.step s a with
      | some t => obs s a ++ Machine.history obs t as
      | none => []

variable {M}

theorem Machine.after_append (s : σ) (as bs : List α) :
    M.after s (as ++ bs) = (M.after s as).bind fun t => M.after t bs := by
  induction as generalizing s with
  | nil => rfl
  | cons a as ih =>
    rw [List.cons_append, Machine.after, Machine.after, Option.bind_assoc]
    exact Option.bind_congr fun t _ => ih t

theorem Machine.last_of_after {s t : σ} {as : List α} (h : M.after s as = some t) :
    M.last s as = t := by
  induction as generalizing s with
  | nil => exact Option.some.inj h
  | cons a as ih =>
    obtain ⟨u, hu, ht⟩ := Option.bind_eq_some_iff.1 h
    rw [Machine.last, hu]
    exact ih ht

/-- What holds along a run holds where it stops. -/
theorem Machine.Always.last {P : σ → Prop} {s : σ} {as : List α} (h : M.Always P s as) :
    P (M.last s as) := by
  induction as generalizing s with
  | nil => exact h
  | cons a as ih =>
    rw [Machine.last]
    split
    · exact ih (h.2 _ (by assumption))
    · exact h.1

/-- A property of every state that a run from `s` reaches. -/
theorem Machine.always_iff_after {P : σ → Prop} {s : σ} :
    (∀ as, M.Always P s as) ↔ ∀ as t, M.after s as = some t → P t := by
  constructor
  · intro h as t ht
    rw [← Machine.last_of_after ht]
    exact (h as).last
  · intro h as
    induction as generalizing s with
    | nil => exact h [] s rfl
    | cons a as ih =>
      refine ⟨h [] s rfl, fun t ht => ih fun bs u hu => h (a :: bs) u ?_⟩
      rw [Machine.after, ht]
      exact hu

/-- What every step keeps holds behind every run. -/
theorem Machine.after_of_step {Inv : σ → Prop}
    (hstep : ∀ s a t, Inv s → M.step s a = some t → Inv t) {s t : σ} (hs : Inv s)
    {as : List α} (h : M.after s as = some t) : Inv t := by
  induction as generalizing s with
  | nil => exact Option.some.inj h ▸ hs
  | cons a as ih =>
    obtain ⟨u, hu, ht⟩ := Option.bind_eq_some_iff.1 h
    exact ih (hstep s a u hs hu) ht

/-- **The invariant rule for a record.**  What holds of the record and the state at
the start, and survives every step with what is recorded of it, holds at the end. -/
theorem Machine.history_of_step (obs : σ → α → List β) {R : List β → σ → Prop}
    (hstep : ∀ h s a t, R h s → M.step s a = some t → R (h ++ obs s a) t)
    {h : List β} {s : σ} (hs : R h s) (as : List α) :
    R (h ++ M.history obs s as) (M.last s as) := by
  induction as generalizing h s with
  | nil => rw [Machine.history, List.append_nil]; exact hs
  | cons a as ih =>
    rw [Machine.history, Machine.last]
    split
    · rw [← List.append_assoc]
      exact ih (hstep _ _ _ _ hs (by assumption))
    · rw [List.append_nil]
      exact hs

/-- **The rule for progress.**  If from every state of the invariant short of the
goal some step keeps the invariant and brings the rank down, the goal is reached,
in at most as many steps as the rank says. -/
theorem Machine.exists_run_of_rank {Inv G : σ → Prop} (rank : σ → ℕ)
    (hstep : ∀ s, Inv s → ¬ G s →
      ∃ a t, M.step s a = some t ∧ Inv t ∧ rank t < rank s) {s : σ} (hs : Inv s) :
    ∃ as t, M.after s as = some t ∧ as.length ≤ rank s ∧ Inv t ∧ G t := by
  induction hr : rank s using Nat.strongRecOn generalizing s with
  | ind r ih =>
    by_cases hgoal : G s
    · exact ⟨[], s, rfl, Nat.zero_le _, hs, hgoal⟩
    · obtain ⟨a, t, ht, hinv, hlt⟩ := hstep s hs hgoal
      obtain ⟨as, u, hu, hlen, hend⟩ := ih _ (hr ▸ hlt) hinv rfl
      refine ⟨a :: as, u, by rw [Machine.after, ht]; exact hu, ?_, hend⟩
      rw [List.length_cons]
      omega

/-- **The rule for steps that are runs.**  Where every step of `N` is a run of `M`, what
holds along every run of `M` holds along every run of `N`. -/
theorem Machine.always_of_runs {τ : Type*} {N : Machine τ β} {f : τ → σ} {P : σ → Prop}
    (hruns : ∀ x b y, N.step x b = some y → ∃ as, M.after (f x) as = some (f y))
    {bs : List β} {x : τ} (h : ∀ as, M.Always P (f x) as) : N.Always (fun y => P (f y)) x bs := by
  induction bs generalizing x with
  | nil => exact h []
  | cons b bs ih =>
    refine ⟨(h []).head, fun y hy => ih ?_⟩
    obtain ⟨as, has⟩ := hruns x b y hy
    rw [Machine.always_iff_after] at h ⊢
    intro cs t ht
    exact h (as ++ cs) t (by rw [Machine.after_append, has]; exact ht)

end Transition
end NrfSamples
