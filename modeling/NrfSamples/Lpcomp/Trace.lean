/-
# What `poweroff` says along a trace of input voltages

`peripherals/lpcomp_system_off/src/main.c` logs "Voltage below VDD * 4/8" and
sets `poweroff`, or logs "Voltage above VDD * 7/8" and clears it.  So along a
trace of input voltages `poweroff` should tell on which side of the band
`[4/8 VDD, 7/8 VDD]` the last sample outside the band was (`Tracks`).

The comparator output is `1` when the input is above the reference.  The sample
starts with the rising edge enabled and the reference at `4/8 VDD`, and takes an
output of `1` to mean that the voltage is low.  From a high voltage it therefore
sees nothing when the voltage falls, and sets `poweroff` when it comes back.
`tracks_iff_stays` gives the traces on which `poweroff` is right: those that
never go below `4/8 VDD` and never rise above it from there, on which the
callback does not run at all (`runTrace_eq_of_stays`).

Voltages are elements of an ordered field; hysteresis is left out.
-/

import NrfSamples.Lpcomp.Callback
import Mathlib.Algebra.Order.Field.Basic
import Mathlib.Algebra.Order.Ring.Rat
import Mathlib.Data.List.Chain
import Mathlib.Data.List.Induction
import Mathlib.Data.Rat.Defs
import Mathlib.Tactic.Linarith
import Mathlib.Tactic.NormNum

namespace NrfSamples
namespace Lpcomp

variable {K : Type*} [Field K] [LinearOrder K]

/-- The supply voltage. -/
structure Supply (K : Type*) [Field K] [LinearOrder K] where
  vdd : K
  pos : 0 < vdd

/-- The voltage a reference stands for. -/
def Supply.level (S : Supply K) : Reference → K
  | .supply48 => 4 / 8 * S.vdd
  | .supply78 => 7 / 8 * S.vdd

/-- `comparator_get_output`: `1` when the input is above the reference. -/
def Supply.output (S : Supply K) (r : Reference) (v : K) : ℤ :=
  if S.level r < v then 1 else 0

/-- The input going from `u` to `v` crosses the reference in the direction the
last start enabled. -/
def Supply.fires (S : Supply K) (s : App) (u v : K) : Bool :=
  match s.interrupt with
  | .up => !decide (S.level s.config.reference < u) && decide (S.level s.config.reference < v)
  | .down => decide (S.level s.config.reference < u) && !decide (S.level s.config.reference < v)

/-- One more sample: if it crosses the reference, the callback runs, with every
reconfiguration succeeding. -/
def Supply.sample (S : Supply K) (p : App × K) (v : K) : App × K :=
  if S.fires p.1 p.2 v then
    (compCallback (S.output p.1.config.reference v) .success p.1, v)
  else
    (p.1, v)

/-- The application after the samples `v₀ :: vs`, with the last of them. -/
def Supply.runTrace (S : Supply K) (v₀ : K) (vs : List K) : App × K :=
  vs.foldl S.sample (App.start, v₀)

/-- The last sample outside the band `[4/8 VDD, 7/8 VDD]`. -/
def Supply.lastOutside (S : Supply K) (vs : List K) : Option K :=
  (vs.filter fun v => decide (v < S.level .supply48) || decide (S.level .supply78 < v)).getLast?

/-- After every prefix, `poweroff` is set exactly when the last sample outside
the band was below it, and exactly while the sample waits for high voltage. -/
def Supply.Tracks (S : Supply K) (v₀ : K) (vs : List K) : Prop :=
  ∀ p, p <+: vs →
    ((S.runTrace v₀ p).1.poweroff = true ↔
      ∃ v, S.lastOutside (v₀ :: p) = some v ∧ v < S.level .supply48) ∧
    ((S.runTrace v₀ p).1.poweroff = true ↔
      (S.runTrace v₀ p).1.currentState = .waitingForVoltHigh)

/-- No sample is below `4/8 VDD`, and none above it comes after one that is not. -/
def Supply.Stays (S : Supply K) (vs : List K) : Prop :=
  (∀ v ∈ vs, S.level .supply48 ≤ v) ∧
    vs.IsChain fun u v => S.level .supply48 < v → S.level .supply48 < u

theorem Supply.runTrace_snoc (S : Supply K) (v₀ : K) (vs : List K) (v : K) :
    S.runTrace v₀ (vs ++ [v]) = S.sample (S.runTrace v₀ vs) v := by
  simp only [Supply.runTrace, List.foldl_append, List.foldl_cons, List.foldl_nil]

theorem Supply.runTrace_snd (S : Supply K) (v₀ : K) (vs : List K) :
    (S.runTrace v₀ vs).2 = (v₀ :: vs).getLast (List.cons_ne_nil _ _) := by
  induction vs using List.reverseRecOn with
  | nil => rfl
  | append_singleton vs v _ =>
    rw [Supply.runTrace_snoc, Supply.sample]
    split_ifs <;> simp

/-- In the start state only a rising crossing of `4/8 VDD` runs the callback. -/
theorem Supply.fires_start (S : Supply K) (u v : K) :
    S.fires App.start u v = true ↔ ¬ S.level .supply48 < u ∧ S.level .supply48 < v := by
  have h : S.fires App.start u v =
      (!decide (S.level .supply48 < u) && decide (S.level .supply48 < v)) := rfl
  rw [h, Bool.and_eq_true, Bool.not_eq_true', decide_eq_false_iff_not, decide_eq_true_iff]

theorem Supply.sample_start_of_not_fires (S : Supply K) {u v : K}
    (h : ¬ (¬ S.level .supply48 < u ∧ S.level .supply48 < v)) :
    S.sample (App.start, u) v = (App.start, v) := by
  rw [← Supply.fires_start] at h
  simp only [Supply.sample, h, Bool.false_eq_true, if_false]

/-- The rising crossing sets `poweroff`: the output is `1` there. -/
theorem Supply.sample_start_of_fires (S : Supply K) {u v : K}
    (hu : ¬ S.level .supply48 < u) (hv : S.level .supply48 < v) :
    (S.sample (App.start, u) v).1.poweroff = true := by
  have hf : S.fires App.start u v = true := (S.fires_start u v).2 ⟨hu, hv⟩
  have hout : S.output App.start.config.reference v = 1 := by
    simp only [Supply.output, App.start, hv, if_true]
  simp only [Supply.sample, hf, if_true, hout]
  rfl

theorem Supply.Stays.snoc_iff (S : Supply K) (v₀ : K) (vs : List K) (v : K) :
    S.Stays (v₀ :: (vs ++ [v])) ↔ S.Stays (v₀ :: vs) ∧ S.level .supply48 ≤ v ∧
      (S.level .supply48 < v →
        S.level .supply48 < (v₀ :: vs).getLast (List.cons_ne_nil _ _)) := by
  rw [← List.cons_append]
  simp only [Supply.Stays, List.forall_mem_append, List.isChain_append,
    List.getLast?_eq_some_getLast (List.cons_ne_nil v₀ vs), List.forall_mem_singleton,
    List.isChain_singleton, List.head?_cons, Option.mem_def, Option.some.injEq]
  constructor
  · rintro ⟨⟨h₁, h₂⟩, h₃, _, h₄⟩
    exact ⟨⟨h₁, h₃⟩, h₂, h₄ _ rfl _ rfl⟩
  · rintro ⟨⟨h₁, h₃⟩, h₂, h₄⟩
    exact ⟨⟨h₁, h₂⟩, h₃, trivial, fun x hx y hy => hx ▸ hy ▸ h₄⟩

/-- **On a trace that stays the callback never runs.** -/
theorem Supply.runTrace_eq_of_stays (S : Supply K) {v₀ : K} {vs : List K}
    (h : S.Stays (v₀ :: vs)) : (S.runTrace v₀ vs).1 = App.start := by
  induction vs using List.reverseRecOn with
  | nil => rfl
  | append_singleton vs v ih =>
    obtain ⟨hs, _, hchain⟩ := (Supply.Stays.snoc_iff S v₀ vs v).1 h
    have hrun : S.runTrace v₀ vs = (App.start, (v₀ :: vs).getLast (List.cons_ne_nil _ _)) :=
      Prod.ext (ih hs) (S.runTrace_snd v₀ vs)
    rw [Supply.runTrace_snoc, hrun, S.sample_start_of_not_fires fun hf => hf.1 (hchain hf.2)]

theorem Supply.Stays.shorter {S : Supply K} {us vs : List K} (h : S.Stays vs)
    (hp : us <+: vs) : S.Stays us :=
  have ⟨_, hvs⟩ := hp
  ⟨fun v hv => h.1 v (hp.mem hv), (List.isChain_append.1 (hvs ▸ h.2)).1⟩

/-- A trace that stays has no sample below the band. -/
theorem Supply.Stays.lastOutside_not_below {S : Supply K} {vs : List K} (h : S.Stays vs) :
    ¬ ∃ v, S.lastOutside vs = some v ∧ v < S.level .supply48 := by
  rintro ⟨v, hv, hlt⟩
  have hmem : v ∈ vs := (List.mem_filter.1 (List.mem_of_getLast? hv)).1
  exact absurd hlt (not_lt.2 (h.1 v hmem))

theorem Supply.lastOutside_snoc_below (S : Supply K) (vs : List K) {v : K}
    (h : v < S.level .supply48) : S.lastOutside (vs ++ [v]) = some v := by
  simp [Supply.lastOutside, List.filter_append, h]

/-- While no sample was below the band, a sample keeps `poweroff` right only if
it is not below the band and does not rise above `4/8 VDD`. -/
theorem Supply.Tracks.stays_snoc {S : Supply K} {v₀ : K} {vs p : List K} {v : K}
    (h : S.Tracks v₀ vs) (hp : p ++ [v] <+: vs) (hs : S.Stays (v₀ :: p)) :
    S.Stays (v₀ :: (p ++ [v])) := by
  have hrun : S.runTrace v₀ p = (App.start, (v₀ :: p).getLast (List.cons_ne_nil _ _)) :=
    Prod.ext (S.runTrace_eq_of_stays hs) (S.runTrace_snd v₀ p)
  have htrack := (h _ hp).1
  rw [Supply.runTrace_snoc, hrun, ← List.cons_append] at htrack
  have hlow : S.level .supply48 ≤ v := by
    by_contra hlt
    rw [not_le] at hlt
    rw [S.sample_start_of_not_fires fun hf => absurd hf.2 hlt.not_gt,
      S.lastOutside_snoc_below _ hlt] at htrack
    exact Bool.false_ne_true (htrack.2 ⟨v, rfl, hlt⟩)
  refine (Supply.Stays.snoc_iff S v₀ p v).2 ⟨hs, hlow, fun hv => ?_⟩
  by_contra hu
  obtain ⟨w, hw, hwlt⟩ := htrack.1 (S.sample_start_of_fires hu hv)
  have hmem : w ∈ v₀ :: p ++ [v] := (List.mem_filter.1 (List.mem_of_getLast? hw)).1
  rcases List.mem_append.1 hmem with hw | hw
  · exact absurd hwlt (not_lt.2 (hs.1 w hw))
  · rw [List.mem_singleton.1 hw] at hwlt
    exact absurd hwlt (not_lt.2 hlow)

variable [IsStrictOrderedRing K]

theorem Supply.level_lt (S : Supply K) : S.level .supply48 < S.level .supply78 := by
  have := S.pos
  simp only [Supply.level]
  linarith

/-- **When `poweroff` is right.**  For a trace that begins above `7/8 VDD`,
`poweroff` tells the side of the last sample outside the band after every prefix
exactly when no sample is below `4/8 VDD` and none rises above `4/8 VDD` from a
sample that is not. -/
theorem tracks_iff_stays (S : Supply K) {v₀ : K} (h₀ : S.level .supply78 < v₀) (vs : List K) :
    S.Tracks v₀ vs ↔ S.Stays (v₀ :: vs) := by
  have hhalf : S.level .supply48 ≤ v₀ := (S.level_lt.trans h₀).le
  constructor
  · intro h
    have key : ∀ p, p <+: vs → S.Stays (v₀ :: p) := by
      intro p
      induction p using List.reverseRecOn with
      | nil => exact fun _ => ⟨by simpa using hhalf, List.isChain_singleton _⟩
      | append_singleton p v ih =>
        exact fun hp => h.stays_snoc hp (ih ((List.prefix_append p [v]).trans hp))
    exact key vs List.prefix_rfl
  · intro h p hp
    have hs : S.Stays (v₀ :: p) := h.shorter (List.cons_prefix_cons.2 ⟨rfl, hp⟩)
    rw [S.runTrace_eq_of_stays hs]
    exact ⟨iff_of_false (by decide) hs.lastOutside_not_below, by decide⟩

/-- `VDD = 8`, so that `4/8 VDD` is `4` and `7/8 VDD` is `7`. -/
def Supply.eight : Supply ℚ where
  vdd := 8
  pos := by norm_num

/-- The trace `8, 5` stays above `4`. -/
theorem tracks_iff_stays_eight_five : Supply.eight.Tracks 8 [5] ↔ Supply.eight.Stays [8, 5] :=
  tracks_iff_stays Supply.eight (by norm_num [Supply.level, Supply.eight]) [5]

/-- Falling from `VDD` to `0` leaves `poweroff` clear. -/
theorem not_tracks_eight_zero :
    ¬ ∀ (S : Supply ℚ) (v₀ : ℚ) (vs : List ℚ), S.level .supply78 < v₀ → S.Tracks v₀ vs := by
  intro h
  have habove : Supply.eight.level .supply78 < 8 := by norm_num [Supply.level, Supply.eight]
  have htracks := (h Supply.eight 8 [0] habove [0] List.prefix_rfl).1
  have hclear : ¬ (Supply.eight.runTrace 8 [0]).1.poweroff = true := by
    norm_num [Supply.runTrace, Supply.sample, Supply.fires, Supply.level, Supply.eight, App.start]
  refine hclear (htracks.2 ⟨0, ?_, ?_⟩)
  · norm_num [Supply.lastOutside, Supply.level, Supply.eight]
  · norm_num [Supply.level, Supply.eight]

end Lpcomp
end NrfSamples
