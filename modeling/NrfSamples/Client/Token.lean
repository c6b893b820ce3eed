/-
# Flow control and the token, along every run

The client of `bootloader_samples/client_smp/smp_client_ble/src/main.c` refines
the token of `Client.Flow`, so what that says of the token holds in every state
of every run of the client.

Flow control holds without a condition (`controlled_always`).  That the token is
never lost does not: `send_upload2` returns without giving it back when
`flash_read`, the encoding or the command fails, `smp_upload_rsp_proc` returns
early on most responses, and a disconnect drops the response.
`tokenAlive_iff_meets`: these are all the ways to lose it, and each of them does.
-/

import NrfSamples.Client.System

namespace NrfSamples
namespace Client

open Cbor Zcbor Smp Transition

/-- An invocation is between its `k_sem_take` and the end of the round. -/
def System.Holding (s : System) : Prop := ∃ w, s.worker = some w ∧ w.pc ≠ .semTake

/-- The upload commands that still await their response. -/
def System.uploadsPending (s : System) : ℕ :=
  match s.pending with
  | some ⟨.upload _ _, _⟩ => 1
  | _ => 0

/-- The token is in the semaphore, or a response is awaited that may give it. -/
def TokenAlive (s : System) : Prop := ¬ s.Holding → 1 ≤ s.uploadSem + s.uploadsPending

theorem System.held_eq_one {s : System} (h : s.Holding) : s.flow.phase.held = 1 := by
  obtain ⟨⟨inv, i, v, pc⟩, hw, hpc⟩ := h
  cases pc with
  | semTake => exact absurd rfl hpc
  | flashRead => simp [System.flow, hw, Worker.phase, Phase.held]
  | encode => simp [System.flow, hw, Worker.phase, Phase.held]
  | command f => simp [System.flow, hw, Worker.phase, Phase.held]

theorem System.held_eq_zero {s : System} (h : ¬ s.Holding) : s.flow.phase.held = 0 := by
  cases hw : s.worker with
  | none => simp [System.flow, hw, Phase.held]
  | some w =>
    have hpc : w.pc = .semTake := by
      by_contra hpc
      exact h ⟨w, hw, hpc⟩
    simp [System.flow, hw, Worker.phase, hpc, Phase.held]

theorem System.uploadsPending_eq (s : System) :
    s.uploadsPending = if s.flow.outstanding.isSome then 1 else 0 := by
  rcases hp : s.pending with _ | ⟨_ | _, got⟩ <;>
    simp [System.uploadsPending, System.flow, hp, Pending.chunk]

/-- The tokens of the client. -/
theorem System.live_eq (s : System) :
    s.flow.live = s.uploadSem + s.flow.phase.held + s.uploadsPending := by
  rw [Flow.live, s.uploadsPending_eq]
  rfl

theorem flow_start : System.start.flow.Inv where
  live := by decide
  single := by decide
  waiting := fun _ _ h => by cases h
  holding := fun _ _ h => by cases h
  silent := fun _ _ h => absurd h List.not_mem_nil
  next := fun later _ _ _ h => by cases later <;> cases h
  final := fun later _ _ _ h => by cases later <;> cases h

/-- **Flow control.**  In every state of every run at most one chunk is unanswered,
and a chunk is handed over only after the response to the one before has given
the semaphore. -/
theorem controlled_always (E : Setup) (as : List Action) :
    (client E).Always (fun s => Controlled s.log) .start as := by
  refine Machine.always_of_refines (R := fun f g => ∃ lost, FlowStep lost f g) (f := System.flow)
    ?_ (fun f g hf ⟨_, h⟩ => h.inv hf) (fun s hs => hs.controlled) flow_start
  intro s a t ht
  obtain ⟨hloses, hkeeps⟩ := clientStep_flow E ht
  by_cases h : Loses E s a
  · exact ⟨true, hloses h⟩
  · exact ⟨false, hkeeps h⟩

/-- **When the token is never lost.**  Exactly along the runs without a step that
loses it. -/
theorem tokenAlive_iff_meets (E : Setup) (as : List Action) :
    (client E).Always TokenAlive .start as ↔
      (client E).Meets (fun s a => ¬ Loses E s a) .start as := by
  have halive : ∀ s : System, s.flow.live = 1 → TokenAlive s := by
    intro s hlive hfree
    rw [s.live_eq, System.held_eq_zero hfree] at hlive
    omega
  refine Machine.always_iff_meets halive ?_ ?_ rfl
  · intro s a t hlive hkeeps ht
    rw [((clientStep_flow E ht).2 hkeeps).live_eq hlive.le]
    exact hlive
  · intro s a t hlive hloses ht halive
    have hzero := ((clientStep_flow E ht).1 (not_not.1 hloses)).live_zero hlive.le
    rw [t.live_eq] at hzero
    have hfree : ¬ t.Holding := fun hold => by
      rw [System.held_eq_one hold] at hzero
      omega
    have := halive hfree
    omega

/-- A read of the flash that fails: `send_upload2` returns with the token. -/
theorem not_tokenAlive_flashRead :
    ¬ (client sampleSetup).Always TokenAlive .start
      [.pressUpload, .startWork (Vector.replicate (chunkSize + 1) 0), .semTake,
        .flashRead false] := by
  intro h
  have halive := ((((h.2 _ rfl).2 _ rfl).2 _ rfl).2 _ rfl)
  have hfree := halive (by rintro ⟨w, hw, -⟩; cases hw)
  exact absurd hfree (by decide)

end Client
end NrfSamples
