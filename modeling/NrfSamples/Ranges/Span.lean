/-
# Consecutive ranges

A range is its first address and its length, which may be 0.  `Span a rs b` says
that the ranges `rs` follow one another from `a` to `b`.  Then each lies between
`a` and `b` (`Span.inside`), no two overlap (`Span.disjoint`), and together they
leave nothing out (`Span.covers`).
-/

import Mathlib.Data.Int.Notation
import Mathlib.Data.List.Basic

namespace NrfSamples
namespace Ranges

/-- The ranges follow one another from `a` to `b`. -/
inductive Span : ℤ → List (ℤ × ℤ) → ℤ → Prop
  | nil (a : ℤ) : Span a [] a
  | cons {a len b : ℤ} {rs : List (ℤ × ℤ)} : 0 ≤ len → Span (a + len) rs b →
      Span a ((a, len) :: rs) b

theorem Span.le {a b : ℤ} {rs : List (ℤ × ℤ)} (h : Span a rs b) : a ≤ b := by
  induction h with
  | nil => exact Int.le_refl _
  | cons hlen _ ih => omega

/-- Every range lies between the ends. -/
theorem Span.inside {a b : ℤ} {rs : List (ℤ × ℤ)} (h : Span a rs b) {r : ℤ × ℤ} (hr : r ∈ rs) :
    a ≤ r.1 ∧ 0 ≤ r.2 ∧ r.1 + r.2 ≤ b := by
  induction h with
  | nil => cases hr
  | cons hlen htail ih =>
    rcases List.mem_cons.1 hr with rfl | hr
    · exact ⟨Int.le_refl _, hlen, htail.le⟩
    · obtain ⟨hlo, hpos, hhi⟩ := ih hr
      exact ⟨by omega, hpos, hhi⟩

/-- A range ends before the next ones begin. -/
theorem Span.disjoint {a b : ℤ} {rs : List (ℤ × ℤ)} (h : Span a rs b) :
    rs.Pairwise fun r r' => r.1 + r.2 ≤ r'.1 := by
  induction h with
  | nil => exact .nil
  | cons _ htail ih => exact .cons (fun r hr => (htail.inside hr).1) ih

/-- Every address between the ends is in a range. -/
theorem Span.covers {a b : ℤ} {rs : List (ℤ × ℤ)} (h : Span a rs b) {x : ℤ} (hlo : a ≤ x)
    (hhi : x < b) : ∃ r ∈ rs, r.1 ≤ x ∧ x < r.1 + r.2 := by
  induction h with
  | nil => omega
  | @cons a len b rs _ _ ih =>
    by_cases hx : x < a + len
    · exact ⟨(a, len), List.mem_cons_self, hlo, hx⟩
    · obtain ⟨r, hr, hin⟩ := ih (by omega) hhi
      exact ⟨r, List.mem_cons_of_mem _ hr, hin⟩

end Ranges
end NrfSamples
