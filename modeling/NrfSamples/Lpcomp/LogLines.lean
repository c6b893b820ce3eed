/-
# What the log of `lpcomp_system_off` says

`comp_callback` in `peripherals/lpcomp_system_off/src/main.c` logs a voltage line
whenever it acts, and behind it an error line if `nrfx_lpcomp_reconfigure` fails.

A run of the sample may have any number of interrupts, with any outputs and any
results of the driver, anywhere in the main loop.  `reports_always`: the sample is
always where the results of the callbacks that acted put it (`Reports`); the
voltage lines alternate, and the last one tells `poweroff`, the state and the
edge, while a failed reconfiguration leaves the configuration of an earlier line.
`app_eq_of_log`: so the log tells the whole state of the sample.
-/

import NrfSamples.Lpcomp.PowerOff
import NrfSamples.Transition.Reach
import Mathlib.Algebra.Ring.Parity

namespace NrfSamples
namespace Lpcomp

open Transition

/-- The voltage line of the `i`-th callback that acts. -/
def voltageLine (i : ℕ) : LogLine :=
  .inf (if Even i then "Voltage below VDD * 4/8" else "Voltage above VDD * 7/8")

/-- The configuration it writes. -/
def configOf (i : ℕ) : Config := if Even i then configVoltHigh else configVoltLow

/-- What is logged of a result of `nrfx_lpcomp_reconfigure`. -/
def errLines : NrfxErr → List LogLine
  | .success => []
  | .error e => [.err "lpcomp reconfigure error: %d" (.error e)]

/-- The log of callbacks with these results, the first of them the `i`-th. -/
def logOf : ℕ → List NrfxErr → List LogLine
  | _, [] => []
  | i, r :: rs => voltageLine i :: (errLines r ++ logOf (i + 1) rs)

/-- The configuration they leave. -/
def writtenBy : ℕ → Config → List NrfxErr → Config
  | _, c, [] => c
  | i, c, r :: rs => writtenBy (i + 1) (if r = .success then configOf i else c) rs

theorem logOf_snoc (i : ℕ) (rs : List NrfxErr) (r : NrfxErr) :
    logOf i (rs ++ [r]) = logOf i rs ++ voltageLine (i + rs.length) :: errLines r := by
  induction rs generalizing i with
  | nil => simp [logOf]
  | cons q rs ih =>
    simp only [List.cons_append, logOf, ih, List.append_assoc, List.length_cons]
    rw [Nat.add_right_comm i 1]
    rfl

theorem writtenBy_snoc (i : ℕ) (c : Config) (rs : List NrfxErr) (r : NrfxErr) :
    writtenBy i c (rs ++ [r]) =
      if r = .success then configOf (i + rs.length) else writtenBy i c rs := by
  induction rs generalizing i c with
  | nil => rfl
  | cons q rs ih =>
    rw [List.cons_append, writtenBy, ih, writtenBy, List.length_cons, Nat.add_right_comm i 1]
    rfl

/-- **The results can be read off the log.**  An error line follows a voltage line, so
where the next one begins is clear.  Induction on the results. -/
theorem logOf_inj (i : ℕ) {rs rs' : List NrfxErr} (h : logOf i rs = logOf i rs') : rs = rs' := by
  have hstart : ∀ (j : ℕ) (qs : List NrfxErr) (text : String) (e : NrfxErr) (ls : List LogLine),
      logOf j qs ≠ .err text e :: ls := by
    intro j qs text e ls
    cases qs <;> simp [logOf, voltageLine]
  induction rs generalizing i rs' with
  | nil =>
    cases rs' with
    | nil => rfl
    | cons r' rs' => cases h
  | cons r rs ih =>
    cases rs' with
    | nil => cases h
    | cons r' rs' =>
      have htail := (List.cons.inj h).2
      cases r with
      | success =>
        cases r' with
        | success => rw [ih (i + 1) htail]
        | error e' => exact absurd htail (hstart _ _ _ _ _)
      | error e =>
        cases r' with
        | success => exact absurd htail.symm (hstart _ _ _ _ _)
        | error e' =>
          obtain ⟨hline, hrest⟩ := List.cons.inj htail
          cases hline
          rw [ih (i + 1) hrest]

/-- The sample behind callbacks with these results. -/
structure Reports (rs : List NrfxErr) (s : App) : Prop where
  log : s.log = logOf 0 rs
  poweroff : s.poweroff = decide (Odd rs.length)
  state : s.currentState = if Odd rs.length then .waitingForVoltHigh else .waitingForVoltLow
  interrupt : s.interrupt = if Odd rs.length then .down else .up
  config : s.config = writtenBy 0 App.start.config rs

theorem Reports.start : Reports [] App.start := ⟨rfl, rfl, rfl, rfl, rfl⟩

/-- What a callback that acts logs. -/
theorem logErr_log (s : App) (err : NrfxErr) : (s.logErr err).log = s.log ++ errLines err := by
  cases err <;> simp [App.logErr, errLines]

@[simp] theorem App.reconfigure_log (s : App) (c : Config) (err : NrfxErr) :
    (s.reconfigure c err).log = s.log := by
  cases err <;> rfl

/-- **One callback**: it does nothing, or adds its result. -/
theorem Reports.callback {rs : List NrfxErr} {s : App} (h : Reports rs s) (output : ℤ)
    (err : NrfxErr) :
    compCallback output err s = s ∨ Reports (rs ++ [err]) (compCallback output err s) := by
  have hwritten := writtenBy_snoc 0 App.start.config rs err
  have hlog := logOf_snoc 0 rs err
  rw [Nat.zero_add] at hwritten hlog
  by_cases hodd : Odd rs.length
  · have hstate : s.currentState = .waitingForVoltHigh := by rw [h.state, if_pos hodd]
    have hline : voltageLine rs.length = .inf "Voltage above VDD * 7/8" := by
      rw [voltageLine, if_neg (Nat.not_even_iff_odd.2 hodd)]
    have hnext : configOf rs.length = configVoltLow := if_neg (Nat.not_even_iff_odd.2 hodd)
    by_cases hout : output = 0
    · right
      constructor
      · rw [hlog, ← h.log, hline]
        simp [compCallback, hstate, hout, logErr_log]
      · simp [compCallback, hstate, hout, Nat.odd_add_one, hodd]
      · simp [compCallback, hstate, hout, Nat.odd_add_one, hodd]
      · simp [compCallback, hstate, hout, Nat.odd_add_one, hodd]
      · rw [hwritten, ← h.config, hnext]
        simp [compCallback, hstate, hout]
    · left
      simp [compCallback, hstate, hout]
  · have hstate : s.currentState = .waitingForVoltLow := by rw [h.state, if_neg hodd]
    have hline : voltageLine rs.length = .inf "Voltage below VDD * 4/8" := by
      rw [voltageLine, if_pos (Nat.not_odd_iff_even.1 hodd)]
    have hnext : configOf rs.length = configVoltHigh := if_pos (Nat.not_odd_iff_even.1 hodd)
    by_cases hout : output = 1
    · right
      constructor
      · rw [hlog, ← h.log, hline]
        simp [compCallback, hstate, hout, logErr_log]
      · simp [compCallback, hstate, hout, Nat.odd_add_one, hodd]
      · simp [compCallback, hstate, hout, Nat.odd_add_one, hodd]
      · simp [compCallback, hstate, hout, Nat.odd_add_one, hodd]
      · rw [hwritten, ← h.config, hnext]
        simp [compCallback, hstate, hout]
    · left
      simp [compCallback, hstate, hout]

/-- A callback did act before `sys_poweroff` can be called. -/
def Reported (s : Chip) : Prop :=
  ∃ rs, Reports rs s.app ∧ (s.pc = .poweringOff ∨ s.pc = .systemOff → rs ≠ [])

/-- Every step keeps the sample where its results put it. -/
theorem Reported.step (s : Chip) (a : ChipStep) (t : Chip) (h : Reported s)
    (ht : chip.step s a = some t) : Reported t := by
  obtain ⟨rs, hr, hoff⟩ := h
  cases chipStep_cases ht with
  | interrupt output err hpc =>
    rcases hr.callback output err with heq | hr'
    · exact ⟨rs, by rw [heq]; exact hr, hoff⟩
    · exact ⟨_, hr', fun _ => List.append_ne_nil_of_right_ne_nil _ (List.cons_ne_nil _ _)⟩
  | wake hpc => exact ⟨rs, hr, fun h => by simp at h⟩
  | testClear hpc hflag => exact ⟨rs, hr, fun h => by simp at h⟩
  | testSet hpc hflag =>
    refine ⟨rs, hr, fun _ hnil => ?_⟩
    rw [hr.poweroff, hnil] at hflag
    exact absurd hflag (by decide)
  | sysPoweroff hpc => exact ⟨rs, hr, fun _ => hoff (.inl hpc)⟩

/-- Behind any run the sample is where its results put it. -/
theorem reported_of_after {as : List ChipStep} {s : Chip}
    (h : chip.after ⟨App.start, .sleeping⟩ as = some s) : Reported s :=
  Machine.after_of_step Reported.step ⟨[], Reports.start, fun h => by simp at h⟩ h

/-- **What the log reports**, in every state of every run: interrupts with any output
and any result of the driver, at any point of the main loop. -/
theorem reports_always (as : List ChipStep) :
    chip.Always Reported ⟨App.start, .sleeping⟩ as :=
  Machine.always_iff_after.2 (fun _ _ => reported_of_after) as

/-- **The log tells the whole state of the sample.**  Two runs with the same log leave the
same variables and the same registers. -/
theorem app_eq_of_log {as bs : List ChipStep} {s t : Chip}
    (hs : chip.after ⟨App.start, .sleeping⟩ as = some s)
    (ht : chip.after ⟨App.start, .sleeping⟩ bs = some t) (hlog : s.app.log = t.app.log) :
    s.app = t.app := by
  obtain ⟨rs, hr, -⟩ := reported_of_after hs
  obtain ⟨rs', hr', -⟩ := reported_of_after ht
  obtain rfl := logOf_inj 0 (hr.log.symm.trans (hlog.trans hr'.log))
  obtain ⟨⟨p, q, c, i, l⟩, pc⟩ := s
  obtain ⟨⟨p', q', c', i', l'⟩, pc'⟩ := t
  rw [App.mk.injEq]
  exact ⟨hr.poweroff.trans hr'.poweroff.symm, hr.state.trans hr'.state.symm,
    hr.config.trans hr'.config.symm, hr.interrupt.trans hr'.interrupt.symm, hlog⟩

/-- A rising edge whose reconfiguration fails, at once or after a step of `main`, with
another interrupt behind it. -/
theorem app_eq_of_log_rising : ∃ s t : Chip,
    chip.after ⟨App.start, .sleeping⟩ [.interrupt 1 (.error 5)] = some s ∧
      chip.after ⟨App.start, .sleeping⟩
        [.wake, .interrupt 1 (.error 5), .test, .interrupt 1 .success] = some t ∧
      s.app = t.app := by
  obtain ⟨s, hs⟩ : ∃ s, chip.after ⟨App.start, .sleeping⟩ [.interrupt 1 (.error 5)] = some s :=
    ⟨_, rfl⟩
  obtain ⟨t, ht⟩ : ∃ t, chip.after ⟨App.start, .sleeping⟩
      [.wake, .interrupt 1 (.error 5), .test, .interrupt 1 .success] = some t := ⟨_, rfl⟩
  have hlog : s.app.log = t.app.log := by
    obtain rfl := Option.some.inj hs
    obtain rfl := Option.some.inj ht
    decide
  exact ⟨s, t, hs, ht, app_eq_of_log hs ht hlog⟩

end Lpcomp
end NrfSamples
