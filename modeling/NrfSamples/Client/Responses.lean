/-
# Responses do not mix

All commands of `bootloader_samples/client_smp/smp_client_ble/src/main.c` share
`smp_rsp_buff`, and a disconnect can cut a response short at any byte.  Still each
response that is completed and fits the buffer is handled as if it had come alone,
in one part: what its handler prints, stores and gives is what the bytes of that
response say, given the two hashes that are stored (`answers_alone`).  A response
that does not fit may leave anything in these, but the next one is again handled by
itself.
-/

import NrfSamples.Client.ImageHash
import NrfSamples.Smp.Fragments
import NrfSamples.Transition.Reach

namespace NrfSamples
namespace Client

open Cbor Zcbor Smp Transition

/-! ### The buffer along a run -/

/-- `smp_rsp_buff` holds what has arrived of a response. -/
def Buffered (s : System) : Prop :=
  ∀ p, s.pending = some p → p.got.length ≤ bufferSize → Filled p.got p.got.length s.statics.rsp

/-- **Every step keeps the buffer in order.** -/
theorem Buffered.step {E : Setup} {s t : System} {a : Action} (h : Buffered s)
    (ht : clientStep E s a = some t) : Buffered t := by
  cases clientStep_hash E ht with
  | quiet hstatics _ _ hpending =>
    intro p hp hlen
    rw [hstatics]
    rcases hpending with hsame | hfresh
    · exact h p (hsame ▸ hp) hlen
    · rw [hfresh p hp]
      exact filled_zero _ _
  | send _ _ _ =>
    intro p hp _
    rw [got_of_fresh p hp]
    exact filled_zero _ _
  | @receive q data hq =>
    intro p hp hlen
    unfold System.receive at hp ⊢
    by_cases hdone : (q.part data).totalCheck = true
    · simp only [hdone, if_true] at hp
      cases hkind : q.kind <;> rw [hkind] at hp <;> cases hp
    · simp only [hdone, Bool.false_eq_true, if_false] at hp ⊢
      obtain rfl := Option.some.inj hp
      rw [RspResult.statics, proc_rsp]
      exact filled_part (h q hq) data hlen

/-! ### A response by itself -/

/-- What a handler does with the bytes of a response: it prints why it rejects the
header, or decodes as many bytes behind it as the header says. -/
def answerOf (c : HeaderCheck) (decode : List UInt8 → Effect → Effect) (rsp : List UInt8)
    (e : Effect) : Effect :=
  match c.reject rsp with
  | some line => e.print line
  | none => decode ((payloadOf rsp).take (hdrLen rsp)) e

/-- What the client does with a response to a command. -/
def CommandKind.answer (E : Setup) : CommandKind → List UInt8 → Effect → Effect
  | .upload _ _ => answerOf uploadCheck (uploadEffect E.dec E.mem)
  | .image => answerOf listCheck (listEffect E.dec)

/-- **The call that completes a response** decodes that response. -/
theorem rspProc_answer (c : HeaderCheck) (decode : List UInt8 → Effect → Effect) (m : Memory)
    {p : RspPart} {s : Statics} {rsp : List UInt8} (hp : p.totalCheck = true) (hin : p.Inside)
    (hsize : headerSize + hdrLen rsp ≤ rsp.length) (hfits : rsp.length ≤ bufferSize)
    (hfilled : Filled rsp rsp.length (receive p s.rsp)) :
    (rspProc c (fun _ => []) [] decode m p s).eff = answerOf c decode rsp (s.effect []) := by
  have hheader : (receive p s.rsp).bytes.take headerSize = rsp.take headerSize := by
    have htake := congrArg (List.take headerSize) hfilled
    rwa [List.take_take, List.take_take, Nat.min_eq_left (by omega)] at htake
  have hwindow : (receive p s.rsp).window m (hdrLen rsp) =
      (payloadOf rsp).take (hdrLen rsp) := by
    have hnone : hdrLen rsp - payloadSize = 0 := by
      unfold bufferSize at hfits
      omega
    have htake := congrArg (List.take (headerSize + hdrLen rsp)) hfilled
    rw [List.take_take, List.take_take, Nat.min_eq_left hsize] at htake
    rw [SmpBuffer.window, hnone, List.range_zero, List.map_nil, List.append_nil,
      SmpBuffer.payload, payloadOf, List.take_drop, List.take_drop, htake]
  have hline : overflowLine p = [] := if_pos hin
  unfold rspProc answerOf
  simp only [hp, if_true, hline, List.append_nil, c.reject_congr hheader, hdrLen_congr hheader,
    hwindow]
  cases c.reject rsp <;> rfl

/-- The call that completes the response to a command. -/
theorem proc_answer (E : Setup) {s : System} (hs : Buffered s) {p : Pending}
    (hp : s.pending = some p) {data : List UInt8} (hwhole : (p.part data).totalCheck = true)
    (hfits : (p.got ++ data).length ≤ bufferSize) :
    (p.kind.proc E (p.part data) s.statics).eff =
      p.kind.answer E (p.got ++ data) (s.statics.effect []) := by
  have hfilled := filled_part (hs p hp) data hfits
  have hin : (p.part data).Inside := by
    rw [List.length_append] at hfits
    exact hfits
  have hsize : headerSize + hdrLen (p.got ++ data) ≤ (p.got ++ data).length := by
    rw [List.length_append]
    exact of_decide_eq_true hwhole
  cases hkind : p.kind with
  | upload inv i => exact rspProc_answer uploadCheck _ E.mem hwhole hin hsize hfits hfilled
  | image => exact rspProc_answer listCheck _ E.mem hwhole hin hsize hfits hfilled

/-! ### The responses of a run -/

/-- A response that was completed, and what its handler did. -/
structure Answer where
  kind : CommandKind
  rsp : List UInt8
  eff : Effect

/-- What a step adds to the responses. -/
def answers (E : Setup) (s : System) : Action → List Answer
  | .deliver data =>
      match s.pending with
      | some p =>
          if (p.part data).totalCheck then
            [⟨p.kind, p.got ++ data, (p.kind.proc E (p.part data) s.statics).eff⟩]
          else []
      | none => []
  | _ => []

/-- Responses each of which was handled by itself, if it fits the buffer, and the
hashes that are stored after them. -/
inductive Alone (E : Setup) : List UInt8 → List UInt8 → List Answer → Prop
  | nil : Alone E System.start.statics.hashPrimary System.start.statics.hashSecondary []
  | fits {primary secondary : List UInt8} {h : List Answer} {kind : CommandKind}
      {rsp : List UInt8} {e : Effect} : Alone E primary secondary h → rsp.length ≤ bufferSize →
      e = kind.answer E rsp ⟨primary, secondary, 0, [], []⟩ →
      Alone E e.hashPrimary e.hashSecondary (h ++ [⟨kind, rsp, e⟩])
  | overflow {primary secondary : List UInt8} {h : List Answer} {kind : CommandKind}
      {rsp : List UInt8} {e : Effect} : Alone E primary secondary h → bufferSize < rsp.length →
      Alone E e.hashPrimary e.hashSecondary (h ++ [⟨kind, rsp, e⟩])

/-- The hashes after a part of a response are those the handler leaves. -/
theorem receive_statics (E : Setup) (s : System) (p : Pending) (data : List UInt8) :
    (s.receive E p data).statics = (p.kind.proc E (p.part data) s.statics).statics := by
  unfold System.receive
  dsimp only
  split_ifs
  · cases p.kind <;> rfl
  · rfl

/-- A call with an incomplete response keeps both hashes. -/
theorem proc_hashes (E : Setup) (kind : CommandKind) {p : RspPart} (hp : p.totalCheck = false)
    (s : Statics) :
    (kind.proc E p s).eff.hashPrimary = s.hashPrimary ∧
      (kind.proc E p s).eff.hashSecondary = s.hashSecondary := by
  cases kind with
  | upload inv i =>
    exact (rspProc_hashes uploadCheck (fun _ => []) [] _ E.mem s hp).imp id And.left
  | image => exact (rspProc_hashes listCheck (fun _ => []) [] _ E.mem s hp).imp id And.left

/-- What every step keeps: the buffer in order, and the hashes left by the responses. -/
def Answering (E : Setup) (h : List Answer) (s : System) : Prop :=
  Buffered s ∧ Alone E s.statics.hashPrimary s.statics.hashSecondary h

/-- **A step records a response that was handled by itself**, or none. -/
theorem Answering.step {E : Setup} {h : List Answer} {s t : System} {a : Action}
    (hs : Answering E h s) (ht : clientStep E s a = some t) : Answering E (h ++ answers E s a) t := by
  obtain ⟨hbuffered, halone⟩ := hs
  refine ⟨hbuffered.step ht, ?_⟩
  cases hstep : clientStep_cases ht with
  | @deliver p data hp =>
    rw [receive_statics]
    simp only [answers, hp]
    by_cases hwhole : (p.part data).totalCheck = true
    · rw [if_pos hwhole]
      by_cases hfits : (p.got ++ data).length ≤ bufferSize
      · exact .fits halone hfits (proc_answer E hbuffered hp hwhole hfits)
      · exact .overflow halone (Nat.lt_of_not_le hfits)
    · rw [if_neg hwhole, List.append_nil]
      obtain ⟨h₁, h₂⟩ := proc_hashes E p.kind (Bool.not_eq_true _ ▸ hwhole) s.statics
      rw [RspResult.statics, h₁, h₂]
      exact halone
  | hash ha _ _ =>
    rcases ha with rfl | rfl
    · simpa [answers] using halone
    · simpa [answers] using halone
  | notSent ha =>
    rcases ha with rfl | rfl | rfl
    all_goals simpa [answers] using halone
  | _ => simpa [answers] using halone

/-- **Every response is handled by itself.**  For every run: whatever commands,
disconnects and parts of other responses come between, and whatever they left in the
buffer. -/
theorem answers_alone (E : Setup) (as : List Action) :
    Alone E ((client E).last .start as).statics.hashPrimary
      ((client E).last .start as).statics.hashSecondary
      ((client E).history (answers E) .start as) := by
  have hstart : Answering E [] .start := ⟨(fun _ hp => by cases hp), .nil⟩
  have h := Machine.history_of_step (M := client E) (answers E) (R := Answering E)
    (fun _ _ _ _ hs ht => hs.step ht) hstart as
  exact h.2

end Client
end NrfSamples
