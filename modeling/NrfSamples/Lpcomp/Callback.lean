/-
# The comparator callback of `lpcomp_system_off`

`peripherals/lpcomp_system_off/src/main.c`: `config_volt_high`,
`config_volt_low`, `current_state`, `poweroff` and `comp_callback`.

The sample watches one analog input with the low-power comparator.  Two
configurations differ in the reference they compare with and in the edge they
detect; `comp_callback` reads the comparator output and, depending on
`current_state`, flips `poweroff` and `current_state`, stops the comparator,
writes the other configuration and starts it again with one interrupt enabled.

`nrfx_lpcomp_reconfigure` can fail: then the comparator keeps the configuration
it had, and the callback only logs the error.  The driver is not part of the
sources, so its result is an argument of the callback, as is the output that
`comparator_get_output` returns.
-/

import Mathlib.Data.Int.Notation
import Mathlib.Data.Nat.Notation

namespace NrfSamples
namespace Lpcomp

/-- `enum comp_state`. -/
inductive CompState
  | waitingForVoltHigh
  | waitingForVoltLow
  deriving DecidableEq, Repr

/-- The references the sample uses: `NRF_LPCOMP_REF_SUPPLY_4_8` and
`NRF_LPCOMP_REF_SUPPLY_7_8`. -/
inductive Reference
  | supply48
  | supply78
  deriving DecidableEq, Repr

/-- An edge of the comparator output: `NRF_LPCOMP_DETECT_UP`, `…_DOWN` in a
configuration, `NRF_LPCOMP_INT_UP_MASK`, `…_DOWN_MASK` in a start. -/
inductive Edge
  | up
  | down
  deriving DecidableEq, Repr

/-- `nrfx_lpcomp_config_t`. -/
structure Config where
  reference : Reference
  detection : Edge
  hyst : Bool
  input : ℕ
  interruptPriority : ℕ
  deriving DecidableEq, Repr

/-- `LPCOMP_INPUT_CHANNEL`: `NRF_LPCOMP_INPUT_4`. -/
def lpcompInputChannel : ℕ := 4

/-- `config_volt_high`. -/
def configVoltHigh : Config where
  reference := .supply78
  detection := .up
  hyst := true
  input := lpcompInputChannel
  interruptPriority := 6

/-- `config_volt_low`. -/
def configVoltLow : Config where
  reference := .supply48
  detection := .down
  hyst := true
  input := lpcompInputChannel
  interruptPriority := 6

/-- `nrfx_err_t`: `NRFX_SUCCESS` or an error number. -/
inductive NrfxErr
  | success
  | error (code : ℤ)
  deriving DecidableEq, Repr

/-- What the callback logs. -/
inductive LogLine
  | inf (text : String)
  | err (text : String) (code : NrfxErr)
  deriving DecidableEq, Repr

/-- The static variables of the sample, the comparator registers it writes and
its log.  `config` is the configuration last written successfully, `interrupt`
the edge enabled by the last start. -/
structure App where
  poweroff : Bool
  currentState : CompState
  config : Config
  interrupt : Edge
  log : List LogLine
  deriving DecidableEq, Repr

/-- After `main` has set the callback and the rising-edge trigger: the
configuration is the one of `app.overlay` (`psel = "AIN4"`, `refsel =
"VDD_4_8"`, `enable-hyst`). -/
def App.start : App where
  poweroff := false
  currentState := .waitingForVoltLow
  config :=
    { reference := .supply48, detection := .up, hyst := true, input := 4, interruptPriority := 6 }
  interrupt := .up
  log := []

/-- `nrfx_lpcomp_reconfigure`: a failure leaves the configuration as it was. -/
def App.reconfigure (s : App) (c : Config) : NrfxErr → App
  | .success => { s with config := c }
  | .error _ => s

/-- `LOG_ERR("lpcomp reconfigure error: %d", err)` when `err` is not success. -/
def App.logErr (s : App) : NrfxErr → App
  | .success => s
  | .error e => { s with log := s.log ++ [LogLine.err "lpcomp reconfigure error: %d" (.error e)] }

/-- `comp_callback`, run on the value `output` of `comparator_get_output`;
`err` is what `nrfx_lpcomp_reconfigure` returns if it is called. -/
def compCallback (output : ℤ) (err : NrfxErr) (s : App) : App :=
  if s.currentState = .waitingForVoltHigh ∧ output = 0 then
    let s := { s with
      poweroff := false
      log := s.log ++ [LogLine.inf "Voltage above VDD * 7/8"]
      currentState := .waitingForVoltLow }
    (({ s.reconfigure configVoltLow err with interrupt := .up }).logErr err)
  else if s.currentState = .waitingForVoltLow ∧ output = 1 then
    let s := { s with
      log := s.log ++ [LogLine.inf "Voltage below VDD * 4/8"]
      poweroff := true
      currentState := .waitingForVoltHigh }
    (({ s.reconfigure configVoltHigh err with interrupt := .down }).logErr err)
  else
    s

section Fields

variable (s : App) (c : Config) (err : NrfxErr)

@[simp] theorem App.logErr_poweroff : (s.logErr err).poweroff = s.poweroff := by
  cases err <;> rfl

@[simp] theorem App.logErr_currentState : (s.logErr err).currentState = s.currentState := by
  cases err <;> rfl

@[simp] theorem App.logErr_config : (s.logErr err).config = s.config := by
  cases err <;> rfl

@[simp] theorem App.logErr_interrupt : (s.logErr err).interrupt = s.interrupt := by
  cases err <;> rfl

@[simp] theorem App.reconfigure_poweroff : (s.reconfigure c err).poweroff = s.poweroff := by
  cases err <;> rfl

@[simp] theorem App.reconfigure_currentState :
    (s.reconfigure c err).currentState = s.currentState := by
  cases err <;> rfl

@[simp] theorem App.reconfigure_config :
    (s.reconfigure c err).config = if err = .success then c else s.config := by
  cases err <;> rfl

end Fields

/-- **What one callback can do.**  It leaves everything as it is, or it turns
`poweroff` off and waits for low voltage, or it turns it on and waits for high
voltage; in the two last cases the configuration written is that of the new
state, if the write succeeds. -/
theorem compCallback_cases (output : ℤ) (err : NrfxErr) (s : App) :
    (compCallback output err s = s ∧
        ¬ (s.currentState = .waitingForVoltHigh ∧ output = 0) ∧
        ¬ (s.currentState = .waitingForVoltLow ∧ output = 1)) ∨
      (s.currentState = .waitingForVoltHigh ∧ output = 0 ∧
        (compCallback output err s).poweroff = false ∧
        (compCallback output err s).currentState = .waitingForVoltLow ∧
        (compCallback output err s).interrupt = .up ∧
        (compCallback output err s).config = (s.reconfigure configVoltLow err).config) ∨
      (s.currentState = .waitingForVoltLow ∧ output = 1 ∧
        (compCallback output err s).poweroff = true ∧
        (compCallback output err s).currentState = .waitingForVoltHigh ∧
        (compCallback output err s).interrupt = .down ∧
        (compCallback output err s).config = (s.reconfigure configVoltHigh err).config) := by
  by_cases hhigh : s.currentState = .waitingForVoltHigh ∧ output = 0
  · right; left
    refine ⟨hhigh.1, hhigh.2, ?_⟩
    simp [compCallback, hhigh]
  · by_cases hlow : s.currentState = .waitingForVoltLow ∧ output = 1
    · right; right
      refine ⟨hlow.1, hlow.2, ?_⟩
      simp [compCallback, hlow]
    · left
      exact ⟨by simp only [compCallback, hhigh, hlow, if_false], hhigh, hlow⟩

/-- **`poweroff` says what `current_state` says.**  Every callback, whatever the
output and whether or not the reconfiguration succeeds, keeps `poweroff` true
exactly while the sample waits for high voltage. -/
theorem compCallback_poweroff_iff {s : App} (output : ℤ) (err : NrfxErr)
    (h : s.poweroff = true ↔ s.currentState = .waitingForVoltHigh) :
    (compCallback output err s).poweroff = true ↔
      (compCallback output err s).currentState = .waitingForVoltHigh := by
  rcases compCallback_cases output err s with
    ⟨heq, _, _⟩ | ⟨_, _, hp, hs, _⟩ | ⟨_, _, hp, hs, _⟩
  · rw [heq]; exact h
  · rw [hp, hs]; simp
  · rw [hp, hs]; simp

theorem App.start_poweroff_iff :
    App.start.poweroff = true ↔ App.start.currentState = .waitingForVoltHigh := by
  decide

end Lpcomp
end NrfSamples
