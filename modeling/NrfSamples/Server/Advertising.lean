/-
# Advertising of the SMP server

`bootloader_samples/smp/mcuboot_smp_ble/src/bluetooth_smp.c`: `advertise`,
`connected`, `disconnected`, `on_conn_recycled` and `bt_ready`.

The server advertises once for each connection.  `advertise` runs as a work item,
which is submitted when Bluetooth is ready, when a connection could not be
established, and when a connection object has gone back to the pool; submitting
it again while it waits does nothing.  The Bluetooth stack is not part of the
sources and is the environment: advertising ends with `connected`, a connection
with `disconnected`, a connection object that is given back with `recycled`, and
`bt_le_adv_start` may fail, for want of a connection object or for good.

`available_iff_goes`: something always leads to a next connection exactly as long
as `bt_le_adv_start` does not fail while no connection object is in use.  Where
nothing does, nothing happens any more (`stuck_iff_not_available`); elsewhere the
server can advertise within three steps (`advertises_within`).
-/

import NrfSamples.Transition.Reach
import Mathlib.Data.Int.Notation

namespace NrfSamples
namespace Server

open Transition

/-- Whether `advertise_work` waits and whether the controller advertises; how many
connections there are, and how many connection objects are on their way to the pool. -/
structure Peripheral where
  submitted : Bool
  advertising : Bool
  connections : ℕ
  released : ℕ
  deriving DecidableEq, Repr

/-- `k_work_submit(&advertise_work)`. -/
def Peripheral.submit (s : Peripheral) : Peripheral := { s with submitted := true }

/-- `advertise`, where `bt_le_adv_start` returns `rc`. -/
def advertise (rc : ℤ) (s : Peripheral) : Peripheral :=
  if rc ≠ 0 then s else { s with advertising := true }

/-- `connected`. -/
def connected (err : UInt8) (s : Peripheral) : Peripheral := if err ≠ 0 then s.submit else s

/-- `disconnected`: it only logs. -/
def disconnected (_reason : UInt8) (s : Peripheral) : Peripheral := s

/-- `on_conn_recycled`. -/
def onConnRecycled (s : Peripheral) : Peripheral := s.submit

/-- `bt_ready`. -/
def btReady (err : ℤ) (s : Peripheral) : Peripheral := if err ≠ 0 then s else s.submit

/-- What the stack has done with the connection object when it calls `connected`. -/
def Peripheral.link (s : Peripheral) (err : UInt8) : Peripheral :=
  if err ≠ 0 then { s with advertising := false, released := s.released + 1 }
  else { s with advertising := false, connections := s.connections + 1 }

/-- What can happen next. -/
inductive Event
  | btReady (err : ℤ)
  | advertise (rc : ℤ)
  | connected (err : UInt8)
  | disconnected (reason : UInt8)
  | recycled
  deriving DecidableEq, Repr

/-- One event with its callback; `none` is the server while `bt_enable` is under way. -/
def peripheralStep : Option Peripheral → Event → Option (Option Peripheral)
  | none, .btReady err => some (some (btReady err ⟨false, false, 0, 0⟩))
  | none, _ => none
  | some _, .btReady _ => none
  | some s, .advertise rc =>
      if s.submitted then some (some (advertise rc { s with submitted := false })) else none
  | some s, .connected err =>
      if s.advertising then some (some (connected err (s.link err))) else none
  | some s, .disconnected reason =>
      if 0 < s.connections then
        some (some (disconnected reason
          { s with connections := s.connections - 1, released := s.released + 1 }))
      else
        none
  | some s, .recycled =>
      if 0 < s.released then
        some (some (onConnRecycled { s with released := s.released - 1 }))
      else
        none

/-- The server, from the end of `start_smp_bluetooth_adverts` on. -/
def peripheral : Machine (Option Peripheral) Event where
  init s := s = none
  step := peripheralStep

/-- It advertises, or something is under way that leads there. -/
def Available : Option Peripheral → Prop
  | none => True
  | some s => s.advertising = true ∨ s.submitted = true ∨ 0 < s.connections ∨ 0 < s.released

/-- The step does not strand the server: Bluetooth starts, and `bt_le_adv_start` fails
only while the server advertises already or a connection object is in use. -/
def Goes : Option Peripheral → Event → Prop
  | _, .btReady err => err = 0
  | some s, .advertise rc => rc ≠ 0 → s.advertising = true ∨ 0 < s.connections ∨ 0 < s.released
  | _, _ => True

/-! ### One step -/

/-- The outcomes of the steps. -/
inductive Outcome : Option Peripheral → Event → Option Peripheral → Prop
  | btReady (err : ℤ) : Outcome none (.btReady err) (some (btReady err ⟨false, false, 0, 0⟩))
  | advertise {s : Peripheral} (rc : ℤ) : s.submitted = true →
      Outcome (some s) (.advertise rc) (some (advertise rc { s with submitted := false }))
  | connected {s : Peripheral} (err : UInt8) : s.advertising = true →
      Outcome (some s) (.connected err) (some (connected err (s.link err)))
  | disconnected {s : Peripheral} (reason : UInt8) : 0 < s.connections →
      Outcome (some s) (.disconnected reason) (some (disconnected reason
        { s with connections := s.connections - 1, released := s.released + 1 }))
  | recycled {s : Peripheral} : 0 < s.released →
      Outcome (some s) .recycled (some (onConnRecycled { s with released := s.released - 1 }))

/-- **Every step has one of these outcomes.** -/
theorem peripheralStep_cases {s t : Option Peripheral} {e : Event}
    (h : peripheralStep s e = some t) : Outcome s e t := by
  cases s with
  | none =>
    cases e with
    | btReady err =>
      obtain rfl := Option.some.inj h
      exact .btReady err
    | _ => cases h
  | some s =>
    cases e with
    | btReady err => cases h
    | advertise rc =>
      obtain ⟨hsub, h⟩ := Option.ite_none_right_eq_some.1 h
      obtain rfl := Option.some.inj h
      exact .advertise rc hsub
    | connected err =>
      obtain ⟨hadv, h⟩ := Option.ite_none_right_eq_some.1 h
      obtain rfl := Option.some.inj h
      exact .connected err hadv
    | disconnected reason =>
      obtain ⟨hconn, h⟩ := Option.ite_none_right_eq_some.1 h
      obtain rfl := Option.some.inj h
      exact .disconnected reason hconn
    | recycled =>
      obtain ⟨hrel, h⟩ := Option.ite_none_right_eq_some.1 h
      obtain rfl := Option.some.inj h
      exact .recycled hrel

/-- **A step that goes on keeps the server available.** -/
theorem available_of_goes {s t : Option Peripheral} {e : Event} (he : Goes s e)
    (ht : peripheral.step s e = some t) : Available t := by
  cases peripheralStep_cases ht with
  | btReady err =>
    obtain rfl : err = 0 := he
    exact .inr (.inl rfl)
  | advertise rc _ =>
    unfold advertise
    split_ifs with hrc
    · rcases he hrc with hadv | hconn | hrel
      · exact .inl hadv
      · exact .inr (.inr (.inl hconn))
      · exact .inr (.inr (.inr hrel))
    · exact .inl rfl
  | connected err _ =>
    unfold connected Peripheral.link
    split_ifs with herr
    · exact .inr (.inl rfl)
    · exact .inr (.inr (.inl (Nat.succ_pos _)))
  | disconnected reason _ => exact .inr (.inr (.inr (Nat.succ_pos _)))
  | recycled _ => exact .inr (.inl rfl)

/-- **A step that does not strands it.** -/
theorem not_available_of_not_goes {s t : Option Peripheral} {e : Event} (he : ¬ Goes s e)
    (ht : peripheral.step s e = some t) : ¬ Available t := by
  cases peripheralStep_cases ht with
  | btReady err =>
    have herr : err ≠ 0 := he
    rw [btReady, if_pos herr]
    simp [Available]
  | advertise rc _ =>
    obtain ⟨hrc, hno⟩ := Classical.not_imp.1 he
    rw [advertise, if_pos hrc]
    rintro (hadv | hsub | hinuse)
    · exact hno (.inl hadv)
    · cases hsub
    · exact hno (.inr hinuse)
  | _ => exact absurd trivial he

/-! ### Runs -/

/-- **When the server stays available.**  In every state of a run, if and only if no step
strands it. -/
theorem available_iff_goes (es : List Event) :
    peripheral.Always Available none es ↔ peripheral.Meets Goes none es :=
  Machine.always_iff_meets (fun _ h => h) (fun _ _ _ _ he ht => available_of_goes he ht)
    (fun _ _ _ _ he ht => not_available_of_not_goes he ht) trivial

/-- **What stranded means**: no callback and no work item runs any more. -/
theorem stuck_iff_not_available (s : Option Peripheral) :
    (∀ e, peripheral.step s e = none) ↔ ¬ Available s := by
  cases s with
  | none =>
    refine iff_of_false (fun h => ?_) (not_not.2 trivial)
    cases h (.btReady 0)
  | some s =>
    constructor
    · rintro h (hadv | hsub | hconn | hrel)
      · have := h (.connected 0)
        simp [peripheral, peripheralStep, hadv] at this
      · have := h (.advertise 0)
        simp [peripheral, peripheralStep, hsub] at this
      · have := h (.disconnected 0)
        simp [peripheral, peripheralStep, hconn] at this
      · have := h .recycled
        simp [peripheral, peripheralStep, hrel] at this
    · intro h e
      have hadv : ¬ s.advertising = true := fun hadv => h (.inl hadv)
      have hsub : ¬ s.submitted = true := fun hsub => h (.inr (.inl hsub))
      have hconn : ¬ 0 < s.connections := fun hconn => h (.inr (.inr (.inl hconn)))
      have hrel : ¬ 0 < s.released := fun hrel => h (.inr (.inr (.inr hrel)))
      cases e with
      | btReady err => rfl
      | advertise rc => exact if_neg hsub
      | connected err => exact if_neg hadv
      | disconnected reason => exact if_neg hconn
      | recycled => exact if_neg hrel

/-- It advertises. -/
def Advertises : Option Peripheral → Prop
  | none => False
  | some s => s.advertising = true

/-- How many steps it is away from advertising. -/
def away : Option Peripheral → ℕ
  | none => 2
  | some s =>
      if s.advertising then 0 else if s.submitted then 1 else if 0 < s.released then 2 else 3

/-- Where the server is available but does not advertise, the next step is one that leads
there. -/
theorem Available.next {s : Option Peripheral} (hs : Available s) (hno : ¬ Advertises s) :
    ∃ e t, peripheral.step s e = some t ∧ Available t ∧ away t < away s := by
  cases s with
  | none => exact ⟨.btReady 0, _, rfl, .inr (.inl rfl), by decide⟩
  | some s =>
    have hadv : s.advertising = false := by simpa [Advertises] using hno
    by_cases hsub : s.submitted = true
    · refine ⟨.advertise 0, _, if_pos hsub, .inl rfl, ?_⟩
      simp [away, advertise, hadv, hsub]
    · by_cases hrel : 0 < s.released
      · refine ⟨.recycled, _, if_pos hrel, .inr (.inl rfl), ?_⟩
        simp [away, onConnRecycled, Peripheral.submit, hadv, hsub, hrel]
      · have hconn : 0 < s.connections := by
          rcases hs with hs | hs | hs | hs
          · rw [hadv] at hs
            cases hs
          · exact absurd hs hsub
          · exact hs
          · exact absurd hs hrel
        refine ⟨.disconnected 0, _, if_pos hconn, .inr (.inr (.inr (Nat.succ_pos _))), ?_⟩
        simp [away, disconnected, hadv, hsub, hrel]

/-- **It comes back.**  From wherever a run that strands nothing leads, the server
advertises after at most three more steps: a connection ends, its object is recycled, the
work item runs. -/
theorem advertises_within {es : List Event} {s : Option Peripheral}
    (hs : peripheral.after none es = some s) (hgoes : peripheral.Meets Goes none es) :
    ∃ fs t, peripheral.after none (es ++ fs) = some t ∧ fs.length ≤ 3 ∧ Advertises t := by
  have hstart : Available none := trivial
  have havailable := (Machine.always_of_meets (P := Available) (fun _ h => h)
    (fun _ _ _ _ he ht => available_of_goes he ht) hstart hgoes).last
  rw [Machine.last_of_after hs] at havailable
  obtain ⟨fs, t, ht, hlen, -, hadv⟩ :=
    Machine.exists_run_of_rank away (fun _ h hno => h.next hno) havailable
  have hle : away s ≤ 3 := by
    cases s with
    | none => decide
    | some s =>
      dsimp only [away]
      split_ifs <;> omega
  exact ⟨fs, t, by rw [Machine.after_append, hs]; exact ht, by omega, hadv⟩

/-- A connection that still holds. -/
theorem advertises_within_connection :
    ∃ fs t, peripheral.after none
        ([.btReady 0, .advertise 0, .connected 0] ++ fs) = some t ∧ fs.length ≤ 3 ∧
      Advertises t :=
  advertises_within (s := some ⟨false, false, 1, 0⟩) rfl
    (by
      intro s₁ h₁
      refine ⟨rfl, fun s₂ h₂ => ⟨?_, fun s₃ _ => ⟨?_, trivial⟩⟩⟩
      · obtain rfl := Option.some.inj h₁
        exact fun hrc => absurd rfl hrc
      · cases s₂ <;> trivial)

end Server
end NrfSamples
