/-
# Entering System OFF

`main` of `peripherals/lpcomp_system_off/src/main.c` sleeps, then tests
`poweroff`, then calls `sys_poweroff`.  A comparator interrupt can run
`comp_callback` between any two of these steps, with any output and with
`nrfx_lpcomp_reconfigure` succeeding or failing.

System OFF is left only through the comparator, so when `sys_poweroff` runs the
sample should wait for high voltage and the comparator should hold
`config_volt_high` (`ArmedForWake`).  Two things break this: an interrupt
between the test and the call, which takes the test back, and a failed write of
`config_volt_high`, which the callback only logs after it has committed
`current_state` and `poweroff`.  `armedForWake_of_meets` says that nothing else
does.
-/

import NrfSamples.Lpcomp.Callback
import NrfSamples.Transition.Run

namespace NrfSamples
namespace Lpcomp

open Transition

/-- Where `main` is in its loop. -/
inductive MainPc
  | sleeping
  | testing
  | poweringOff
  | systemOff
  deriving DecidableEq, Repr

/-- The sample with its main loop. -/
structure Chip where
  app : App
  pc : MainPc
  deriving DecidableEq, Repr

/-- One step: a comparator interrupt, or one of the three steps of the loop. -/
inductive ChipStep
  | interrupt (output : ℤ) (err : NrfxErr)
  | wake
  | test
  | sysPoweroff
  deriving DecidableEq, Repr

/-- The steps of `main` and of the interrupt.  Nothing runs in System OFF. -/
def chipStep (s : Chip) : ChipStep → Option Chip
  | .interrupt output err =>
      if s.pc = .systemOff then none else some { s with app := compCallback output err s.app }
  | .wake => if s.pc = .sleeping then some { s with pc := .testing } else none
  | .test =>
      if s.pc = .testing then
        some { s with pc := if s.app.poweroff then .poweringOff else .sleeping }
      else
        none
  | .sysPoweroff => if s.pc = .poweringOff then some { s with pc := .systemOff } else none

/-- The sample from the end of the initialization in `main` on. -/
def chip : Machine Chip ChipStep where
  init s := s = ⟨App.start, .sleeping⟩
  step := chipStep

/-- The outcomes of the steps. -/
inductive ChipOutcome (s : Chip) : ChipStep → Chip → Prop
  | interrupt (output : ℤ) (err : NrfxErr) : s.pc ≠ .systemOff →
      ChipOutcome s (.interrupt output err) { s with app := compCallback output err s.app }
  | wake : s.pc = .sleeping → ChipOutcome s .wake { s with pc := .testing }
  | testClear : s.pc = .testing → s.app.poweroff = false →
      ChipOutcome s .test { s with pc := .sleeping }
  | testSet : s.pc = .testing → s.app.poweroff = true →
      ChipOutcome s .test { s with pc := .poweringOff }
  | sysPoweroff : s.pc = .poweringOff → ChipOutcome s .sysPoweroff { s with pc := .systemOff }

/-- **Every step has one of these outcomes.** -/
theorem chipStep_cases {s t : Chip} {a : ChipStep} (h : chipStep s a = some t) :
    ChipOutcome s a t := by
  cases a with
  | interrupt output err =>
    simp only [chipStep] at h
    split_ifs at h with hpc
    obtain rfl := Option.some.inj h
    exact .interrupt output err hpc
  | wake =>
    simp only [chipStep] at h
    split_ifs at h with hpc
    obtain rfl := Option.some.inj h
    exact .wake hpc
  | test =>
    simp only [chipStep] at h
    split_ifs at h with hpc hflag
    · obtain rfl := Option.some.inj h
      exact .testSet hpc hflag
    · obtain rfl := Option.some.inj h
      exact .testClear hpc (by simpa using hflag)
  | sysPoweroff =>
    simp only [chipStep] at h
    split_ifs at h with hpc
    obtain rfl := Option.some.inj h
    exact .sysPoweroff hpc

/-- In System OFF the sample waits for high voltage and the comparator holds
`config_volt_high`. -/
def ArmedForWake (s : Chip) : Prop :=
  s.pc = .systemOff →
    s.app.currentState = .waitingForVoltHigh ∧ s.app.config = configVoltHigh

/-- An interrupt that does not take back a test of `poweroff` already made, and
does not fail to write `config_volt_high` over another configuration.  Every
step of `main` qualifies. -/
def Harmless (s : Chip) : ChipStep → Prop
  | .interrupt output err =>
      ¬ (s.pc = .poweringOff ∧ s.app.currentState = .waitingForVoltHigh ∧ output = 0) ∧
        (s.app.currentState = .waitingForVoltLow → output = 1 → s.app.config ≠ configVoltHigh →
          err = .success)
  | _ => True

/-- What harmless steps keep: the flag agrees with the state, the comparator
holds `config_volt_high` while the sample waits for high voltage, and it does
wait for it once `poweroff` has been tested. -/
structure ChipInv (s : Chip) : Prop where
  flag : s.app.poweroff = true ↔ s.app.currentState = .waitingForVoltHigh
  armed : s.app.currentState = .waitingForVoltHigh → s.app.config = configVoltHigh
  tested : s.pc = .poweringOff ∨ s.pc = .systemOff → s.app.currentState = .waitingForVoltHigh

theorem ChipInv.start : ChipInv ⟨App.start, .sleeping⟩ where
  flag := App.start_poweroff_iff
  armed h := absurd h (by decide)
  tested h := absurd h (by decide)

theorem ChipInv.armedForWake {s : Chip} (h : ChipInv s) : ArmedForWake s := by
  intro hoff
  have hhigh := h.tested (Or.inr hoff)
  exact ⟨hhigh, h.armed hhigh⟩

/-- A harmless interrupt keeps the invariant. -/
theorem ChipInv.interrupt {s : Chip} (h : ChipInv s) {output : ℤ} {err : NrfxErr}
    (hpc : s.pc ≠ .systemOff) (hok : Harmless s (.interrupt output err)) :
    ChipInv { s with app := compCallback output err s.app } := by
  refine ⟨compCallback_poweroff_iff output err h.flag, ?_, ?_⟩
  · rcases compCallback_cases output err s.app with
      ⟨heq, _, _⟩ | ⟨_, _, _, hs, _⟩ | ⟨hlow, hout, _, _, _, hc⟩
    · rw [heq]; exact h.armed
    · intro hhigh; rw [hs] at hhigh; cases hhigh
    · intro _
      rw [hc, App.reconfigure_config]
      by_cases hold : s.app.config = configVoltHigh
      · rw [hold, ite_self]
      · rw [if_pos (hok.2 hlow hout hold)]
  · intro htested
    rcases compCallback_cases output err s.app with
      ⟨heq, _, _⟩ | ⟨hhigh, hout, _, _, _⟩ | ⟨_, _, _, hs, _⟩
    · rw [heq]; exact h.tested htested
    · rcases htested with hp | hp
      · exact absurd ⟨hp, hhigh, hout⟩ hok.1
      · exact absurd hp hpc
    · exact hs

/-- Harmless steps keep the invariant. -/
theorem ChipInv.step (s : Chip) (a : ChipStep) (t : Chip) (h : ChipInv s) (hok : Harmless s a)
    (ht : chip.step s a = some t) : ChipInv t := by
  cases a with
  | interrupt output err =>
    simp only [chip, chipStep] at ht
    split_ifs at ht with hpc
    obtain rfl := Option.some.inj ht
    exact h.interrupt hpc hok
  | wake =>
    simp only [chip, chipStep] at ht
    split_ifs at ht
    obtain rfl := Option.some.inj ht
    exact ⟨h.flag, h.armed, fun hpc => absurd hpc (by simp)⟩
  | test =>
    simp only [chip, chipStep] at ht
    split_ifs at ht with _ hflag
    · obtain rfl := Option.some.inj ht
      exact ⟨h.flag, h.armed, fun _ => h.flag.1 hflag⟩
    · obtain rfl := Option.some.inj ht
      exact ⟨h.flag, h.armed, fun hpc => absurd hpc (by simp)⟩
  | sysPoweroff =>
    simp only [chip, chipStep] at ht
    split_ifs at ht with hpc
    obtain rfl := Option.some.inj ht
    exact ⟨h.flag, h.armed, fun _ => h.tested (Or.inl hpc)⟩

/-- **System OFF is entered armed for the wake-up.**  In every run whose
interrupts are harmless, whenever `sys_poweroff` has run the sample waits for
high voltage and the comparator holds `config_volt_high`. -/
theorem armedForWake_of_meets {s : Chip} (hs : chip.init s) {as : List ChipStep}
    (h : chip.Meets Harmless s as) : chip.Always ArmedForWake s as := by
  obtain rfl : s = ⟨App.start, .sleeping⟩ := hs
  exact Machine.always_of_meets (fun _ => ChipInv.armedForWake) ChipInv.step ChipInv.start h

/-- A rising edge, then the three steps of the loop: System OFF is entered. -/
theorem armedForWake_one_interrupt :
    chip.Always ArmedForWake ⟨App.start, .sleeping⟩
      [.interrupt 1 .success, .wake, .test, .sysPoweroff] :=
  armedForWake_of_meets rfl (by
    intro t ht
    refine ⟨⟨by decide, fun _ _ _ => rfl⟩, fun t₁ _ => ⟨trivial, fun t₂ _ => ⟨trivial, fun t₃ _ =>
      ⟨trivial, trivial⟩⟩⟩⟩)

/-- A voltage that recovers between the test and the call: the sample enters
System OFF waiting for low voltage. -/
theorem not_armedForWake_recovery :
    ¬ ∀ (s : Chip) (as : List ChipStep), chip.init s → chip.Always ArmedForWake s as := by
  intro h
  have hrun := h _ [.interrupt 1 .success, .wake, .test, .interrupt 0 .success, .sysPoweroff] rfl
  have hoff := (((((hrun.2 _ rfl).2 _ rfl).2 _ rfl).2 _ rfl).2 _ rfl : ArmedForWake _)
  exact absurd (hoff rfl).1 (by decide)

end Lpcomp
end NrfSamples
