/-
# What `poweroff` does say along a trace of input voltages

`Trace` shows that the `poweroff` of `peripherals/lpcomp_system_off/src/main.c`
tells the side of the last sample outside the band only on traces on which
`comp_callback` does not run.  This is what it tells on all others.

The sample has two modes.  While it waits for low voltage the rising edge at
`4/8 VDD` is enabled, and while it waits for high voltage the falling edge at
`7/8 VDD`; each of these edges leads to the other mode.  `poweroff_iff_roseLast`:
`poweroff` is set exactly if the input has risen through `4/8 VDD` and has not
fallen through `7/8 VDD` since.
-/

import NrfSamples.Lpcomp.Trace

namespace NrfSamples
namespace Lpcomp

variable {K : Type*} [Field K] [LinearOrder K]

/-- The input rises through `4/8 VDD`. -/
def Supply.Rises (S : Supply K) (u v : K) : Prop :=
  ¬ S.level .supply48 < u ∧ S.level .supply48 < v

/-- The input falls through `7/8 VDD`. -/
def Supply.Falls (S : Supply K) (u v : K) : Prop :=
  S.level .supply78 < u ∧ ¬ S.level .supply78 < v

/-- It rises through `4/8 VDD`, and from there on does not fall through `7/8 VDD`. -/
def Supply.RoseLast (S : Supply K) (vs : List K) : Prop :=
  ∃ p u v q, vs = p ++ u :: v :: q ∧ S.Rises u v ∧ (v :: q).IsChain fun a b => ¬ S.Falls a b

/-- The mode in which it waits for low voltage. -/
structure WaitsLow (s : App) : Prop where
  poweroff : s.poweroff = false
  state : s.currentState = .waitingForVoltLow
  reference : s.config.reference = .supply48
  interrupt : s.interrupt = .up

/-- The mode in which it waits for high voltage. -/
structure WaitsHigh (s : App) : Prop where
  poweroff : s.poweroff = true
  state : s.currentState = .waitingForVoltHigh
  reference : s.config.reference = .supply78
  interrupt : s.interrupt = .down

theorem WaitsLow.start : WaitsLow App.start := ⟨rfl, rfl, rfl, rfl⟩

/-! ### One sample -/

section Sample

variable (S : Supply K) {s : App} (u v : K)

theorem WaitsLow.fires (h : WaitsLow s) : S.fires s u v = true ↔ S.Rises u v := by
  rw [Supply.fires, h.interrupt, h.reference]
  simp [Supply.Rises]

theorem WaitsHigh.fires (h : WaitsHigh s) : S.fires s u v = true ↔ S.Falls u v := by
  rw [Supply.fires, h.interrupt, h.reference]
  simp [Supply.Falls]

variable {u v}

/-- **Rising through `4/8 VDD`** leads to the other mode: the output is `1` there. -/
theorem WaitsLow.rises (h : WaitsLow s) (hr : S.Rises u v) : WaitsHigh (S.sample (s, u) v).1 := by
  have hout : S.output s.config.reference v = 1 := by
    rw [h.reference, Supply.output, if_pos hr.2]
  have hrun : (S.sample (s, u) v).1 = compCallback 1 .success s := by
    simp only [Supply.sample, (h.fires S u v).2 hr, if_true, hout]
  rw [hrun]
  obtain ⟨-, -, hlow⟩ | ⟨-, hzero, -⟩ | ⟨-, -, hp, hs, hi, hc⟩ := compCallback_cases 1 .success s
  · exact absurd ⟨h.state, rfl⟩ hlow
  · exact absurd hzero (by decide)
  · exact ⟨hp, hs, by rw [hc]; rfl, hi⟩

/-- **Falling through `7/8 VDD`** leads back: the output is `0` there. -/
theorem WaitsHigh.falls (h : WaitsHigh s) (hf : S.Falls u v) : WaitsLow (S.sample (s, u) v).1 := by
  have hout : S.output s.config.reference v = 0 := by
    rw [h.reference, Supply.output, if_neg hf.2]
  have hrun : (S.sample (s, u) v).1 = compCallback 0 .success s := by
    simp only [Supply.sample, (h.fires S u v).2 hf, if_true, hout]
  rw [hrun]
  obtain ⟨-, hhigh, -⟩ | ⟨-, -, hp, hs, hi, hc⟩ | ⟨-, hone, -⟩ := compCallback_cases 0 .success s
  · exact absurd ⟨h.state, rfl⟩ hhigh
  · exact ⟨hp, hs, by rw [hc]; rfl, hi⟩
  · exact absurd hone (by decide)

/-- Any other sample leaves the application alone. -/
theorem Supply.sample_eq (hno : ¬ S.fires s u v = true) : (S.sample (s, u) v).1 = s := by
  simp only [Supply.sample, hno, Bool.false_eq_true, if_false]

end Sample

/-! ### One more sample of a trace -/

/-- The input rose last if it rises now, or did before and does not fall now. -/
theorem Supply.roseLast_snoc (S : Supply K) (p : List K) (u v : K) :
    S.RoseLast (p ++ [u, v]) ↔ S.Rises u v ∨ (S.RoseLast (p ++ [u]) ∧ ¬ S.Falls u v) := by
  constructor
  · rintro ⟨p', u', v', q, heq, hr, hq⟩
    rcases List.eq_nil_or_concat' q with rfl | ⟨q, w, rfl⟩
    · have hlast : p = p' ∧ [u, v] = [u', v'] := List.append_inj' heq rfl
      obtain ⟨-, huv⟩ := hlast
      cases huv
      exact .inl hr
    · -- the rise is behind, and `v` is one sample more
      have hsplit : (p ++ [u]) ++ [v] = (p' ++ u' :: v' :: q) ++ [w] := by
        simpa using heq
      obtain ⟨hbefore, hw⟩ := List.append_inj' hsplit rfl
      cases hw
      rw [← List.cons_append, List.isChain_append] at hq
      refine .inr ⟨⟨p', u', v', q, hbefore, hr, hq.1⟩, hq.2.2 u ?_ v rfl⟩
      have hlast := congrArg List.getLast? hbefore
      rw [List.getLast?_concat, List.getLast?_append_cons, List.getLast?_cons_cons] at hlast
      exact hlast.symm
  · rintro (hr | ⟨⟨p', u', v', q, heq, hr, hq⟩, hf⟩)
    · exact ⟨p, u, v, [], rfl, hr, List.isChain_singleton _⟩
    · refine ⟨p', u', v', q ++ [v], ?_, hr, ?_⟩
      · have := congrArg (· ++ [v]) heq
        simpa using this
      · rw [← List.cons_append, List.isChain_append]
        refine ⟨hq, List.isChain_singleton _, fun x hx y hy => ?_⟩
        have hlast := congrArg List.getLast? heq
        rw [List.getLast?_concat, List.getLast?_append_cons, List.getLast?_cons_cons] at hlast
        rw [← hlast] at hx
        cases hx
        cases hy
        exact hf

/-- A single sample has not risen. -/
theorem Supply.not_roseLast_singleton (S : Supply K) (v : K) : ¬ S.RoseLast [v] := by
  rintro ⟨p, u, w, q, heq, -⟩
  have := congrArg List.length heq
  simp at this
  omega

variable [IsStrictOrderedRing K]

/-- What rises through `4/8 VDD` comes from below `7/8 VDD`. -/
theorem Supply.Rises.not_falls {S : Supply K} {u v : K} (h : S.Rises u v) : ¬ S.Falls u v :=
  fun hf => h.1 (S.level_lt.trans hf.1)

/-- **The mode along a trace**, by induction on the samples. -/
theorem Supply.runTrace_mode (S : Supply K) (v₀ : K) (vs : List K) :
    (WaitsHigh (S.runTrace v₀ vs).1 ∧ S.RoseLast (v₀ :: vs)) ∨
      (WaitsLow (S.runTrace v₀ vs).1 ∧ ¬ S.RoseLast (v₀ :: vs)) := by
  induction vs using List.reverseRecOn with
  | nil => exact .inr ⟨WaitsLow.start, S.not_roseLast_singleton v₀⟩
  | append_singleton vs v ih =>
    obtain ⟨p, u, hp⟩ : ∃ p u, v₀ :: vs = p ++ [u] :=
      (List.eq_nil_or_concat' (v₀ :: vs)).resolve_left (List.cons_ne_nil _ _)
    have hrun : S.runTrace v₀ vs = ((S.runTrace v₀ vs).1, u) := by
      refine Prod.ext rfl ?_
      rw [S.runTrace_snd]
      simp only [hp, List.getLast_append_singleton]
    have htrace : v₀ :: (vs ++ [v]) = p ++ [u, v] := by
      rw [← List.cons_append, hp, List.append_assoc]
      rfl
    rw [S.runTrace_snoc, hrun, htrace, S.roseLast_snoc]
    rw [hp] at ih
    rcases ih with ⟨hmode, hrose⟩ | ⟨hmode, hrose⟩
    · by_cases hf : S.Falls u v
      · exact .inr ⟨hmode.falls S hf, fun h =>
          h.elim (fun hr => hr.not_falls hf) fun h => h.2 hf⟩
      · rw [S.sample_eq (mt (hmode.fires S u v).1 hf)]
        exact .inl ⟨hmode, .inr ⟨hrose, hf⟩⟩
    · by_cases hr : S.Rises u v
      · exact .inl ⟨hmode.rises S hr, .inl hr⟩
      · rw [S.sample_eq (mt (hmode.fires S u v).1 hr)]
        exact .inr ⟨hmode, fun h => h.elim hr fun h => hrose h.1⟩

/-- **When `poweroff` is set**, on every trace of input voltages: exactly if the input
has risen through `4/8 VDD` and has not fallen through `7/8 VDD` since. -/
theorem poweroff_iff_roseLast (S : Supply K) (v₀ : K) (vs : List K) :
    (S.runTrace v₀ vs).1.poweroff = true ↔ S.RoseLast (v₀ :: vs) := by
  rcases S.runTrace_mode v₀ vs with ⟨hmode, hrose⟩ | ⟨hmode, hrose⟩
  · exact iff_of_true hmode.poweroff hrose
  · exact iff_of_false (by rw [hmode.poweroff]; decide) hrose

/-- With `VDD = 8`, a rise from `3` to `5` that is followed by a fall to `2`. -/
theorem poweroff_iff_roseLast_eight : (Supply.eight.runTrace 8 [3, 5, 2]).1.poweroff = true :=
  (poweroff_iff_roseLast Supply.eight 8 [3, 5, 2]).2
    ⟨[8], 3, 5, [2], rfl, by norm_num [Supply.Rises, Supply.level, Supply.eight],
      by norm_num [Supply.Falls, Supply.level, Supply.eight]⟩

end Lpcomp
end NrfSamples
