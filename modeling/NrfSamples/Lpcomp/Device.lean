/-
# Going to sleep and waking up

The whole device of `peripherals/lpcomp_system_off/src/main.c`: the input voltage,
`comp_callback`, the loop of `main` with `sys_poweroff`, and System OFF, which the
comparator ends by a reset when the input crosses the reference that was written
last in the direction of its `detection`.  Samples of the input can come between
any two steps of the loop; reconfigurations succeed, and hysteresis is left out.

`sleeps_always`: left to its loop, the device goes to System OFF exactly if the
input has risen through `4/8 VDD` since the last reset, and has not fallen through
`7/8 VDD` behind that.  `wakes_always`: in System OFF it wakes up exactly if the
input rises through `7/8 VDD`, unless the input fell through `7/8 VDD` between the
last test of `poweroff` and `sys_poweroff`; then exactly if it falls through
`4/8 VDD`.
-/

import NrfSamples.Lpcomp.Crossings
import NrfSamples.Lpcomp.PowerOff
import NrfSamples.Transition.Reach

namespace NrfSamples
namespace Lpcomp

open Transition

variable {K : Type*} [Field K] [LinearOrder K]

/-- The sample, the input at its last reset, the samples of the input from there on
up to System OFF, and the input now. -/
structure Device (K : Type*) where
  chip : Chip
  first : K
  seen : List K
  input : K

/-- The device after a reset. -/
def Device.reset (v : K) : Device K := ⟨⟨App.start, .sleeping⟩, v, [], v⟩

/-- A step of the loop of `main`. -/
inductive LoopStep
  | wake
  | test
  | sysPoweroff
  deriving DecidableEq, Repr

def LoopStep.chipStep : LoopStep → ChipStep
  | .wake => .wake
  | .test => .test
  | .sysPoweroff => .sysPoweroff

/-- A sample of the input, or a step of the loop. -/
inductive DeviceStep (K : Type*)
  | sample (v : K)
  | loop (a : LoopStep)

/-- The input going from `u` to `v` ends System OFF: it crosses the reference in the
direction of `detection`. -/
def Supply.wakes (S : Supply K) (c : Config) (u v : K) : Bool :=
  match c.detection with
  | .up => !decide (S.level c.reference < u) && decide (S.level c.reference < v)
  | .down => decide (S.level c.reference < u) && !decide (S.level c.reference < v)

/-- The steps of the device. -/
def deviceStep (S : Supply K) (d : Device K) : DeviceStep K → Option (Device K)
  | .sample v =>
      if d.chip.pc = .systemOff then
        some (if S.wakes d.chip.app.config d.input v then .reset v else { d with input := v })
      else
        some { d with
          chip := ⟨(S.sample (d.chip.app, d.input) v).1, d.chip.pc⟩
          seen := d.seen ++ [v]
          input := v }
  | .loop a => (Lpcomp.chipStep d.chip a.chipStep).map fun c => { d with chip := c }

/-- The device, from a reset on. -/
def device (S : Supply K) : Machine (Device K) (DeviceStep K) where
  init d := ∃ v, d = .reset v
  step := deviceStep S

/-- The samples since the last reset. -/
def Device.trace (d : Device K) : List K := d.first :: d.seen

/-! ### One step -/

/-- A sample changes nothing, or leaves one of the two configurations with the flag that
goes with it. -/
theorem Supply.sample_cases (S : Supply K) (s : App) (u v : K) :
    (S.sample (s, u) v).1 = s ∨
      ((S.sample (s, u) v).1.poweroff = false ∧ (S.sample (s, u) v).1.config = configVoltLow) ∨
      ((S.sample (s, u) v).1.poweroff = true ∧
        (S.sample (s, u) v).1.config = configVoltHigh) := by
  rw [Supply.sample]
  split_ifs with hfires
  · rcases compCallback_cases (S.output s.config.reference v) .success s with
      ⟨heq, -, -⟩ | ⟨-, -, hoff, -, -, hconfig⟩ | ⟨-, -, hoff, -, -, hconfig⟩
    · exact .inl heq
    · exact .inr (.inl ⟨hoff, hconfig⟩)
    · exact .inr (.inr ⟨hoff, hconfig⟩)
  · exact .inl rfl

/-- The configuration and the flag along a trace. -/
theorem Supply.runTrace_config (S : Supply K) (v₀ : K) (vs : List K)
    (hoff : (S.runTrace v₀ vs).1.poweroff = true) :
    (S.runTrace v₀ vs).1.config = configVoltHigh := by
  induction vs using List.reverseRecOn with
  | nil => cases hoff
  | append_singleton vs v ih =>
    rw [S.runTrace_snoc] at hoff ⊢
    rcases S.sample_cases (S.runTrace v₀ vs).1 (S.runTrace v₀ vs).2 v with
      heq | ⟨hclear, -⟩ | ⟨-, hconfig⟩
    · rw [heq] at hoff ⊢
      exact ih hoff
    · rw [hclear] at hoff
      cases hoff
    · exact hconfig

/-- What every step keeps: the variables are those of the trace since the reset, and
behind a test that found `poweroff` set the comparator holds one of the two
configurations, the one that goes with the flag. -/
structure DeviceInv (S : Supply K) (d : Device K) : Prop where
  app : d.chip.app = (S.runTrace d.first d.seen).1
  input : d.chip.pc ≠ .systemOff → d.input = (S.runTrace d.first d.seen).2
  armed : d.chip.pc = .poweringOff ∨ d.chip.pc = .systemOff →
    d.chip.app.config = if d.chip.app.poweroff then configVoltHigh else configVoltLow

theorem DeviceInv.reset (S : Supply K) (v : K) : DeviceInv S (.reset v) where
  app := rfl
  input := fun _ => rfl
  armed := fun h => by rcases h with h | h <;> cases h

/-- A sample while the device is not in System OFF. -/
theorem DeviceInv.sample {S : Supply K} {d : Device K} (h : DeviceInv S d)
    (hpc : d.chip.pc ≠ .systemOff) (v : K) :
    DeviceInv S { d with
      chip := ⟨(S.sample (d.chip.app, d.input) v).1, d.chip.pc⟩
      seen := d.seen ++ [v]
      input := v } := by
  have hlast : (d.chip.app, d.input) = S.runTrace d.first d.seen :=
    Prod.ext h.app (h.input hpc)
  refine ⟨?_, fun _ => ?_, fun hoff => ?_⟩
  · dsimp only
    rw [S.runTrace_snoc, hlast]
  · dsimp only
    rw [S.runTrace_snd, List.getLast_cons (by simp), List.getLast_append_singleton]
  · dsimp only
    rcases S.sample_cases d.chip.app d.input v with heq | ⟨hclear, hconfig⟩ | ⟨hset, hconfig⟩
    · rw [heq]
      exact h.armed hoff
    · rw [hclear, hconfig]
      rfl
    · rw [hset, hconfig]
      rfl

/-- **Every step keeps the invariant.** -/
theorem DeviceInv.step {S : Supply K} {d e : Device K} {a : DeviceStep K} (h : DeviceInv S d)
    (he : deviceStep S d a = some e) : DeviceInv S e := by
  cases a with
  | sample v =>
    simp only [deviceStep] at he
    split_ifs at he with hpc hwakes
    · obtain rfl := Option.some.inj he
      exact .reset S v
    · obtain rfl := Option.some.inj he
      exact ⟨h.app, fun hno => absurd hpc hno, h.armed⟩
    · obtain rfl := Option.some.inj he
      exact h.sample hpc v
  | loop a =>
    obtain ⟨c, hc, rfl⟩ := Option.map_eq_some_iff.1 he
    have hinput : ∀ pc, d.chip.pc = pc → pc ≠ .systemOff →
        d.input = (S.runTrace d.first d.seen).2 := fun _ hpc hne => h.input (hpc ▸ hne)
    cases a with
    | wake =>
      cases chipStep_cases hc with
      | wake hpc => exact ⟨h.app, fun _ => hinput _ hpc nofun, fun hoff => by simp at hoff⟩
    | test =>
      cases chipStep_cases hc with
      | testClear hpc _ => exact ⟨h.app, fun _ => hinput _ hpc nofun, fun hoff => by simp at hoff⟩
      | testSet hpc hflag =>
        refine ⟨h.app, fun _ => hinput _ hpc nofun, fun _ => ?_⟩
        dsimp only
        rw [hflag, if_pos rfl, h.app]
        exact S.runTrace_config _ _ (h.app ▸ hflag)
    | sysPoweroff =>
      cases chipStep_cases hc with
      | sysPoweroff hpc => exact ⟨h.app, fun hno => absurd rfl hno, fun _ => h.armed (.inl hpc)⟩

/-- The invariant in every state of every run. -/
theorem deviceInv_of_after {S : Supply K} {v₀ : K} {as : List (DeviceStep K)} {d : Device K}
    (hd : (device S).after (.reset v₀) as = some d) : DeviceInv S d :=
  Machine.after_of_step (M := device S) (fun _ _ _ h he => h.step he) (.reset S v₀) hd

/-! ### Going to sleep -/

/-- With `poweroff` clear a step of the loop stays in its first two. -/
theorem loop_of_clear {c c' : Chip} {m : LoopStep} (hclear : c.app.poweroff = false)
    (hpc : c.pc = .sleeping ∨ c.pc = .testing) (h : chipStep c m.chipStep = some c') :
    c'.app.poweroff = false ∧ (c'.pc = .sleeping ∨ c'.pc = .testing) := by
  cases m with
  | wake =>
    cases chipStep_cases h with
    | wake _ => exact ⟨hclear, .inr rfl⟩
  | test =>
    cases chipStep_cases h with
    | testClear _ _ => exact ⟨hclear, .inl rfl⟩
    | testSet _ hset =>
      rw [hclear] at hset
      cases hset
  | sysPoweroff =>
    cases chipStep_cases h with
    | sysPoweroff hoff => rcases hpc with hpc | hpc <;> rw [hpc] at hoff <;> cases hoff

/-- So the loop alone does not lead to System OFF.  Induction on its steps. -/
theorem loops_of_clear {S : Supply K} {ms : List LoopStep} {d e : Device K}
    (hclear : d.chip.app.poweroff = false)
    (hpc : d.chip.pc = .sleeping ∨ d.chip.pc = .testing)
    (he : (device S).after d (ms.map .loop) = some e) : e.chip.pc ≠ .systemOff := by
  induction ms generalizing d with
  | nil =>
    obtain rfl := Option.some.inj he
    rcases hpc with hpc | hpc <;> rw [hpc] <;> decide
  | cons m ms ih =>
    obtain ⟨f, hf, he⟩ := Option.bind_eq_some_iff.1 he
    obtain ⟨c, hc, rfl⟩ := Option.map_eq_some_iff.1 hf
    obtain ⟨hclear', hpc'⟩ := loop_of_clear hclear hpc hc
    exact ih hclear' hpc' he

/-- With `poweroff` set it does. -/
theorem loops_of_set {S : Supply K} {d : Device K} (hset : d.chip.app.poweroff = true)
    (hpc : d.chip.pc = .sleeping ∨ d.chip.pc = .testing) :
    ∃ (ms : List LoopStep) (e : Device K),
      (device S).after d (ms.map .loop) = some e ∧ e.chip.pc = .systemOff := by
  obtain ⟨⟨app, pc⟩, first, seen, input⟩ := d
  change app.poweroff = true at hset
  rcases hpc with rfl | rfl
  · refine ⟨[.wake, .test, .sysPoweroff], ⟨⟨app, .systemOff⟩, first, seen, input⟩, ?_, rfl⟩
    simp [Machine.after, device, deviceStep, LoopStep.chipStep, chipStep, hset]
  · refine ⟨[.test, .sysPoweroff], ⟨⟨app, .systemOff⟩, first, seen, input⟩, ?_, rfl⟩
    simp [Machine.after, device, deviceStep, LoopStep.chipStep, chipStep, hset]

/-- Left to its loop, the device goes to System OFF exactly if the input rose last. -/
def Sleeps (S : Supply K) (d : Device K) : Prop :=
  d.chip.pc = .sleeping ∨ d.chip.pc = .testing →
    ((∃ (ms : List LoopStep) (e : Device K),
        (device S).after d (ms.map .loop) = some e ∧ e.chip.pc = .systemOff) ↔
      S.RoseLast d.trace)

/-- From System OFF, the device wakes up exactly if the input rises through `7/8 VDD`, or,
where it had fallen before `sys_poweroff`, if it falls through `4/8 VDD`. -/
def Wakes (S : Supply K) (d : Device K) : Prop :=
  d.chip.pc = .systemOff → ∀ v,
    ((∃ e, deviceStep S d (.sample v) = some e ∧ e.chip.pc ≠ .systemOff) ↔
      (S.RoseLast d.trace ∧ ¬ S.level .supply78 < d.input ∧ S.level .supply78 < v) ∨
        (¬ S.RoseLast d.trace ∧ S.level .supply48 < d.input ∧ ¬ S.level .supply48 < v))

/-- The comparator decides whether a sample ends System OFF. -/
theorem wakes_of_systemOff {S : Supply K} {d : Device K} (hpc : d.chip.pc = .systemOff) (v : K) :
    (∃ e, deviceStep S d (.sample v) = some e ∧ e.chip.pc ≠ .systemOff) ↔
      S.wakes d.chip.app.config d.input v = true := by
  simp only [deviceStep, hpc, if_true, Option.some.injEq, exists_eq_left']
  by_cases hwakes : S.wakes d.chip.app.config d.input v = true
  · simp [hwakes, Device.reset]
  · simp [hwakes, hpc]

variable [IsStrictOrderedRing K]

/-- The mode in every state of a run. -/
theorem DeviceInv.mode {S : Supply K} {d : Device K} (h : DeviceInv S d) :
    (WaitsHigh d.chip.app ∧ S.RoseLast d.trace) ∨ (WaitsLow d.chip.app ∧ ¬ S.RoseLast d.trace) := by
  rw [h.app]
  exact S.runTrace_mode d.first d.seen

/-- **When the device goes to sleep**, in every state of every run. -/
theorem sleeps_always (S : Supply K) (v₀ : K) (as : List (DeviceStep K)) :
    (device S).Always (Sleeps S) (.reset v₀) as := by
  refine Machine.always_iff_after.2 (fun as d hd hpc => ?_) as
  rcases (deviceInv_of_after hd).mode with ⟨hmode, hrose⟩ | ⟨hmode, hrose⟩
  · exact iff_of_true (loops_of_set hmode.poweroff hpc) hrose
  · refine iff_of_false ?_ hrose
    rintro ⟨ms, e, he, hoff⟩
    exact loops_of_clear hmode.poweroff hpc he hoff

/-- **When it wakes up**, in every state of every run. -/
theorem wakes_always (S : Supply K) (v₀ : K) (as : List (DeviceStep K)) :
    (device S).Always (Wakes S) (.reset v₀) as := by
  refine Machine.always_iff_after.2 (fun as d hd hpc v => ?_) as
  have hinv := deviceInv_of_after hd
  have harmed := hinv.armed (.inr hpc)
  rw [wakes_of_systemOff hpc]
  rcases hinv.mode with ⟨hmode, hrose⟩ | ⟨hmode, hrose⟩
  · rw [hmode.poweroff, if_pos rfl] at harmed
    simp [Supply.wakes, harmed, hrose, configVoltHigh]
  · rw [hmode.poweroff, if_neg Bool.false_ne_true] at harmed
    simp [Supply.wakes, harmed, hrose, configVoltLow]

/-- With `VDD = 8`: asleep after a rise from `3` to `5`, awake at `8`. -/
theorem sleeps_always_eight : (device Supply.eight).Always (Sleeps Supply.eight) (.reset 8)
    [.sample 3, .sample 5, .loop .wake, .loop .test, .loop .sysPoweroff, .sample 8] :=
  sleeps_always Supply.eight 8 _

theorem wakes_always_eight : (device Supply.eight).Always (Wakes Supply.eight) (.reset 8)
    [.sample 3, .sample 5, .loop .wake, .loop .test, .loop .sysPoweroff, .sample 8] :=
  wakes_always Supply.eight 8 _

end Lpcomp
end NrfSamples
