/-
# How much a run can send

Every press of the upload button in
`bootloader_samples/client_smp/smp_client_ble/src/main.c` submits `send_upload2`
once more, unless a submission already waits.  `handedOver_le`: the frames handed
to `bt_dfu_smp_command` by the uploads of a run are no more than the presses times
the chunks of the slot, whatever the server answers; there is no retry.
-/

import NrfSamples.Client.Serial

namespace NrfSamples
namespace Client

open Cbor Zcbor Smp Transition

/-- An invocation starts. -/
def SendEvent.isStarted : SendEvent → Bool
  | .started _ => true
  | .handed _ _ _ _ => false

/-- The invocations that start. -/
def starts (es : List SendEvent) : ℕ := es.countP SendEvent.isStarted

/-- The presses of the upload button. -/
def uploadPresses (as : List Action) : ℕ :=
  as.countP fun a => match a with | .pressUpload => true | _ => false

/-- A step starts an invocation only if one was queued, and only the button queues
one. -/
theorem starts_sendEvents {E : Setup} {s t : System} {a : Action} (h : clientStep E s a = some t) :
    starts (sendEvents s a) + t.queued.toNat ≤ s.queued.toNat + uploadPresses [a] := by
  have hquiet : starts (sendEvents s a) = 0 → t.queued = s.queued →
      starts (sendEvents s a) + t.queued.toNat ≤ s.queued.toNat + uploadPresses [a] := by
    intro hnone hqueued
    rw [hnone, hqueued]
    omega
  cases clientStep_cases h with
  | pressUpload => exact Nat.le_add_left _ _
  | startWork data _ hq =>
    rw [hq]
    exact Nat.le_add_right _ _
  | @commandOk ok inv i u f hw _ =>
    exact hquiet (by rw [sendEvents, hw]; rfl) rfl
  | @commandFails ok inv i u f hw _ =>
    exact hquiet (by rw [sendEvents, hw]; rfl) rfl
  | @hash _ ok _ f ha _ _ =>
    rcases ha with rfl | rfl <;> exact hquiet rfl rfl
  | @notSent _ ok ha =>
    rcases ha with rfl | rfl | rfl <;> exact hquiet rfl rfl
  | @deliver p data _ => exact hquiet rfl (receive_uploads E s p data).2.2
  | _ => exact hquiet rfl rfl

/-- **The invocations of a run** are no more than the presses. -/
theorem starts_history_le (E : Setup) (as : List Action) (s : System) :
    starts ((client E).history sendEvents s as) ≤ s.queued.toNat + uploadPresses as := by
  induction as generalizing s with
  | nil => exact Nat.zero_le _
  | cons a as ih =>
    have hpresses : uploadPresses (a :: as) = uploadPresses [a] + uploadPresses as :=
      @List.countP_append _ _ [a] as
    rw [Machine.history]
    split
    · rename_i t ht
      have hstep := starts_sendEvents ht
      have hrest := ih t
      have happend : starts (sendEvents s a ++ (client E).history sendEvents t as) =
          starts (sendEvents s a) + starts ((client E).history sendEvents t as) :=
        List.countP_append
      rw [happend, hpresses]
      omega
    · exact Nat.zero_le _

/-! ### The frames of the invocations -/

theorem handedOver_append (es fs : List SendEvent) :
    (handedOver (es ++ fs)).length = (handedOver es).length + (handedOver fs).length := by
  simp [handedOver]

theorem starts_append (es fs : List SendEvent) : starts (es ++ fs) = starts es + starts fs :=
  List.countP_append

/-- The chunks of an invocation are handed over, and start nothing. -/
theorem acceptedChunks_count (inv : ℕ) (fs : List (List UInt8)) :
    (handedOver (acceptedChunks inv fs)).length = fs.length ∧
      starts (acceptedChunks inv fs) = 0 := by
  induction fs using List.reverseRecOn with
  | nil => exact ⟨rfl, rfl⟩
  | append_singleton fs f ih =>
    rw [acceptedChunks_snoc, handedOver_append, starts_append, ih.1, ih.2, List.length_append]
    exact ⟨rfl, rfl⟩

/-- The loop has a frame for every chunk of the slot. -/
theorem length_sendUpload2 {z : ZcborEncoder} {S : Slot} {flash : ℤ → UInt8}
    {data : Vector UInt8 (chunkSize + 1)} {fs : List (List UInt8)}
    (h : sendUpload2 z S flash data = some fs) : fs.length = S.size / chunkSize + 1 := by
  obtain ⟨gs, qs, hgs, hqs, hcount, -⟩ := sendUpload2_spec z S flash data
  obtain rfl := Option.some.inj (h.symm.trans hgs)
  rw [← hcount]
  simpa using congrArg List.length hqs

/-- At most that many for an invocation. -/
theorem Invocation.length_handedOver {E : Setup} {inv : ℕ} {es : List SendEvent}
    (h : Invocation E inv es) :
    (handedOver es).length ≤ E.slot.size / chunkSize + 1 ∧ starts es = 1 := by
  have hstart : ∀ (data : Vector UInt8 (chunkSize + 1)) (fs : List SendEvent),
      (handedOver (.started data :: fs)).length = (handedOver fs).length ∧
        starts (.started data :: fs) = 1 + starts fs := by
    intro data fs
    have h := starts_append [.started data] fs
    exact ⟨by simp [handedOver, SendEvent.isHanded], h⟩
  cases h with
  | @accepted data fs sent hloop hsent =>
    have hlen := hsent.length_le
    rw [length_sendUpload2 hloop] at hlen
    obtain ⟨h₁, h₂⟩ := acceptedChunks_count inv sent
    rw [(hstart data _).1, (hstart data _).2, h₁, h₂]
    exact ⟨hlen, rfl⟩
  | @refused data fs sent f hloop hsent =>
    have hlen := hsent.length_le
    rw [length_sendUpload2 hloop, List.length_append] at hlen
    obtain ⟨h₁, h₂⟩ := acceptedChunks_count inv sent
    rw [(hstart data _).1, (hstart data _).2, handedOver_append, starts_append, h₁, h₂]
    exact ⟨hlen, rfl⟩

theorem Serial.handedOver_eq {E : Setup} {n : ℕ} {es : List SendEvent} (h : Serial E n es) :
    (handedOver es).length = n * (E.slot.size / chunkSize + 1) ∧ starts es = n := by
  induction h with
  | nil => exact ⟨(Nat.zero_mul _).symm, rfl⟩
  | @snoc n es data fs _ hloop ih =>
    obtain ⟨h₁, h₂⟩ := acceptedChunks_count n fs
    rw [List.append_cons, handedOver_append, handedOver_append, starts_append, starts_append, ih.1,
      ih.2, h₁, h₂, length_sendUpload2 hloop]
    exact ⟨(Nat.succ_mul _ _).symm, rfl⟩

/-- **The frames of a run.**  For every order of the steps. -/
theorem handedOver_le (E : Setup) (as : List Action) :
    (handedOver ((client E).history sendEvents .start as)).length ≤
      uploadPresses as * (E.slot.size / chunkSize + 1) := by
  have hstarts := starts_history_le E as .start
  obtain ⟨n, whole, cut, stuck, hh, hwhole, hcut, hstuck⟩ := 
    (current_or_lost E as).elim Current.sequential Lost.sequential
  obtain ⟨hw₁, hw₂⟩ := hwhole.handedOver_eq
  have hstuck' : (handedOver stuck).length = 0 := by
    rcases hstuck with rfl | ⟨data, rfl⟩ <;> rfl
  rw [hh, starts_append, starts_append, hw₂] at hstarts
  rw [hh, handedOver_append, handedOver_append, hw₁, hstuck']
  have hpresses : n + starts cut ≤ uploadPresses as := by
    have hq : System.start.queued.toNat = 0 := rfl
    omega
  have hcut' : (handedOver cut).length ≤ starts cut * (E.slot.size / chunkSize + 1) := by
    rcases hcut with rfl | hcut
    · exact Nat.zero_le _
    · rw [hcut.length_handedOver.2, Nat.one_mul]
      exact hcut.length_handedOver.1
  calc n * (E.slot.size / chunkSize + 1) + ((handedOver cut).length + 0)
      ≤ n * (E.slot.size / chunkSize + 1) + starts cut * (E.slot.size / chunkSize + 1) := by omega
    _ = (n + starts cut) * (E.slot.size / chunkSize + 1) := (Nat.add_mul _ _ _).symm
    _ ≤ uploadPresses as * (E.slot.size / chunkSize + 1) := Nat.mul_le_mul_right _ hpresses

end Client
end NrfSamples
