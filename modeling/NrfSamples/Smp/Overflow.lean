/-
# Responses larger than the buffer

The three handlers `smp_upload_rsp_proc`, `smp_list_rsp_proc` and
`smp_echo_rsp_proc` of `bootloader_samples/client_smp/smp_client_ble/src/main.c`.

What a handler decodes should be in the buffer, and should have been copied from
the response it was called for (`DecodesOwn`).  No part is ever copied past the
buffer, but a part that does not fit is only reported: the handler goes on, and
when the response is complete it decodes as many bytes as the header in the
buffer says.  `decodesOwn_iff`: this goes wrong exactly for the responses larger
than the buffer whose header, or the header left in the buffer when the first
part did not fit, passes the checks.
-/

import NrfSamples.Smp.UploadRsp
import NrfSamples.Smp.ListRsp
import NrfSamples.Smp.EchoRsp

namespace NrfSamples
namespace Smp

open Cbor Zcbor

/-- The handlers of the client. -/
inductive RspHandler
  | upload
  | list
  | echo
  deriving DecidableEq, Repr

def RspHandler.check : RspHandler → HeaderCheck
  | .upload => uploadCheck
  | .list => listCheck
  | .echo => echoCheck

def RspHandler.proc (z : ZcborDecoder) (m : Memory) : RspHandler → RspPart → Statics → RspResult
  | .upload => smpUploadRspProc z m
  | .list => smpListRspProc z m
  | .echo => smpEchoRspProc z m

/-- Every handler is `rspProc` with its header checks. -/
theorem RspHandler.proc_eq (z : ZcborDecoder) (m : Memory) (h : RspHandler) :
    ∃ onPart onTotal decode, h.proc z m = rspProc h.check onPart onTotal decode m := by
  cases h with
  | upload => exact ⟨_, _, _, rfl⟩
  | list => exact ⟨_, _, _, rfl⟩
  | echo => exact ⟨_, _, _, rfl⟩

/-- The calls for a response copy into the buffer only, and decode only what is
in the buffer and was copied from the response. -/
structure DecodesOwn (r : Response) (results : List RspResult) : Prop where
  inside : ∀ q ∈ results, ∀ o n, q.copy = some (o, n) → o + n ≤ bufferSize
  window : ∀ pre q post len, results = pre ++ q :: post → q.decoded = some len →
    len ≤ payloadSize ∧ ∀ i, i < headerSize + len →
      (∃ q' ∈ pre ++ [q], Covers q' i) ∧ q.rsp.bytes[i]? = r.bytes[i]?

/-- The bytes whose header the checks see: those of the response, or those left in
the buffer if the first part does not fit. -/
def headerSeen {r : Response} (ps : Parts r) (s : Statics) : List UInt8 :=
  if ps.first.length ≤ bufferSize then r.bytes else s.rsp.bytes

section Overflow

variable (c : HeaderCheck) (onPart : RspPart → List Print) (onTotal : List Print)
  (decode : List UInt8 → Effect → Effect) (m : Memory)

/-- No copy goes past the buffer. -/
theorem copy_inside {p : RspPart} {s : Statics} {o n : ℕ}
    (h : (rspProc c onPart onTotal decode m p s).copy = some (o, n)) :
    p.Inside ∧ o = p.offset ∧ n = p.data.length := by
  rw [rspProc_copy, copyOf] at h
  split_ifs at h with hp
  simp only [Option.some.injEq, Prod.mk.injEq] at h
  exact ⟨hp, h.1.symm, h.2.symm⟩

/-- A call that decodes is the last one. -/
theorem Completion.last {r : List UInt8} {offset : ℕ} {s t : Statics} {pre pre' post : List RspResult}
    {p : RspPart} {q : RspResult} {len : ℕ}
    (hc : Completion (rspProc c onPart onTotal decode m) r offset s pre p t)
    (h : pre ++ [rspProc c onPart onTotal decode m p t] = pre' ++ q :: post)
    (hq : q.decoded = some len) :
    pre = pre' ∧ rspProc c onPart onTotal decode m p t = q ∧ post = [] := by
  have hnot : q ∉ pre := by
    intro hmem
    obtain ⟨p', s', rfl, hp', -⟩ := hc.before q hmem
    obtain ⟨ht, -⟩ := (rspProc_decoded_eq_some c onPart onTotal decode m p' s').1 hq
    rw [hp'] at ht
    cases ht
  rcases List.eq_nil_or_concat post with rfl | ⟨post, x, rfl⟩
  · obtain ⟨hpre, hlast⟩ := List.append_inj' h rfl
    exact ⟨hpre, by simpa using hlast, rfl⟩
  · rw [List.concat_eq_append, ← List.cons_append, ← List.append_assoc] at h
    obtain ⟨rfl, -⟩ := List.append_inj' h rfl
    exact absurd (by simp) hnot

/-- The header in the buffer after the first part. -/
theorem receive_first_header {r : Response} (ps : Parts r) (s : Statics) :
    (receive ⟨0, ps.first, r.bytes.length⟩ s.rsp).bytes.take headerSize =
      (headerSeen ps s).take headerSize := by
  unfold headerSeen
  split_ifs with hle
  · have hin : (⟨0, ps.first, r.bytes.length⟩ : RspPart).Inside :=
      show 0 + ps.first.length ≤ bufferSize by omega
    have hf := (filled_zero r.bytes s.rsp).receive (p := ⟨0, ps.first, r.bytes.length⟩) hin
      ps.whole.symm
    have htake := congrArg (List.take headerSize) hf
    have := ps.header
    rwa [List.take_take, List.take_take, Nat.min_eq_left (by dsimp only; omega)] at htake
  · have hout : ¬ (⟨0, ps.first, r.bytes.length⟩ : RspPart).Inside :=
      fun hin : 0 + ps.first.length ≤ bufferSize => hle (by omega)
    rw [receive, dif_neg hout]

/-- The calls behind the first part do not copy to the first byte. -/
theorem Completion.not_covers_zero {r : List UInt8} {offset : ℕ} {s t : Statics}
    {pre : List RspResult} {p : RspPart}
    (hc : Completion (rspProc c onPart onTotal decode m) r offset s pre p t) (hpos : 0 < offset)
    {q : RspResult} (hq : q ∈ pre ++ [rspProc c onPart onTotal decode m p t]) : ¬ Covers q 0 := by
  have hbehind : ∃ p' s', q = rspProc c onPart onTotal decode m p' s' ∧ offset ≤ p'.offset := by
    rcases List.mem_append.1 hq with hq | hq
    · obtain ⟨p', s', rfl, -, hle⟩ := hc.before q hq
      exact ⟨p', s', rfl, hle⟩
    · exact ⟨p, t, List.mem_singleton.1 hq, hc.behind⟩
  obtain ⟨p', s', rfl, hle⟩ := hbehind
  rintro ⟨o, n, hcopy, ho, -⟩
  obtain ⟨-, rfl, -⟩ := copy_inside c onPart onTotal decode m hcopy
  omega

/-- The header in the buffer at the last call, and what was copied if the first
part does not fit. -/
theorem deliver_headerSeen {r : Response} (ps : Parts r) (s : Statics) :
    ∃ pre p t, ps.deliver (rspProc c onPart onTotal decode m) s =
        pre ++ [rspProc c onPart onTotal decode m p t] ∧ p.totalCheck = true ∧
      (receive p t.rsp).bytes.take headerSize = (headerSeen ps s).take headerSize ∧
      (bufferSize < ps.first.length →
        ∀ q ∈ ps.deliver (rspProc c onPart onTotal decode m) s, ¬ Covers q 0) := by
  have htotal : headerSize + hdrLen ps.first = r.bytes.length := by
    rw [ps.hdrLen_first, r.size]
  have hfirst := receive_first_header ps s
  have hheaderSize : headerSize ≤ 0 + ps.first.length := by
    have := ps.header
    omega
  have hnone : bufferSize < ps.first.length →
      ¬ Covers (rspProc c onPart onTotal decode m ⟨0, ps.first, r.bytes.length⟩ s) 0 := by
    rintro hlt ⟨o, n, hcopy, -⟩
    have hin : 0 + ps.first.length ≤ bufferSize := (copy_inside c onPart onTotal decode m hcopy).1
    omega
  rw [Parts.deliver, htotal, receiveParts]
  by_cases hp : (⟨0, ps.first, r.bytes.length⟩ : RspPart).totalCheck = true
  · refine ⟨[], ⟨0, ps.first, r.bytes.length⟩, s, by simp [hp], hp, hfirst, fun hlt q hq => ?_⟩
    obtain rfl : q = _ := by simpa [hp] using hq
    exact hnone hlt
  · rw [Bool.not_eq_true] at hp
    have hshort : 0 + ps.first.length < r.bytes.length := Nat.not_le.1 (of_decide_eq_false hp)
    have hdrop : r.bytes.drop (0 + ps.first.length) = ps.others.flatten := by
      rw [← ps.whole, Nat.zero_add, List.drop_left' rfl]
    obtain ⟨pre, p, t, hrun, hc⟩ := receiveParts_completion c onPart onTotal decode m ps.others
      hdrop hshort (rspProc c onPart onTotal decode m ⟨0, ps.first, r.bytes.length⟩ s).statics
    simp only [hp, Bool.false_eq_true, if_false, hrun]
    refine ⟨_ :: pre, p, t, rfl, hc.complete, ?_, fun hlt q hq => ?_⟩
    · rw [hc.header hheaderSize, RspResult.statics, rspProc_rsp]
      exact hfirst
    · rcases List.mem_cons.1 hq with rfl | hq
      · exact hnone hlt
      · exact hc.not_covers_zero c onPart onTotal decode m
          (Nat.lt_of_lt_of_le (by decide) hheaderSize) hq

/-- Whatever is delivered, no copy goes past the buffer. -/
theorem deliver_inside {r : Response} (ps : Parts r) (s : Statics) :
    ∀ q ∈ ps.deliver (rspProc c onPart onTotal decode m) s, ∀ o n, q.copy = some (o, n) →
      o + n ≤ bufferSize := by
  obtain ⟨pre, p, t, hrun, hc⟩ := deliver_completion c onPart onTotal decode m ps s
  rw [hrun]
  intro q hq o n hcopy
  have hcall : ∃ p' s', q = rspProc c onPart onTotal decode m p' s' := by
    rcases List.mem_append.1 hq with hq | hq
    · obtain ⟨p', s', rfl, -⟩ := hc.before q hq
      exact ⟨p', s', rfl⟩
    · exact ⟨p, t, by simpa using hq⟩
  obtain ⟨p', s', rfl⟩ := hcall
  obtain ⟨hin, rfl, rfl⟩ := copy_inside c onPart onTotal decode m hcopy
  exact hin

/-- **A response that fits is decoded from its own bytes.** -/
theorem decodesOwn_of_fits {r : Response} (hfits : r.Fits) (ps : Parts r) (s : Statics) :
    DecodesOwn r (ps.deliver (rspProc c onPart onTotal decode m) s) := by
  obtain ⟨pre, p, t, hrun, hc⟩ := deliver_completion c onPart onTotal decode m ps s
  have hfilled := hc.filled hfits (filled_zero r.bytes s.rsp)
  have hsize := r.size
  have hle : r.bytes.length ≤ bufferSize := hfits
  refine ⟨deliver_inside c onPart onTotal decode m ps s, fun pre' q post len hsplit hq => ?_⟩
  rw [hrun] at hsplit
  obtain ⟨rfl, rfl, -⟩ := hc.last c onPart onTotal decode m hsplit hq
  obtain ⟨-, -, rfl⟩ := (rspProc_decoded_eq_some c onPart onTotal decode m p t).1 hq
  rw [hdrLen_congr hfilled.header, rspProc_rsp]
  refine ⟨by unfold bufferSize at hle; omega, fun i hi => ⟨hc.covered hle i (Nat.zero_le i)
    (by omega), ?_⟩⟩
  have hbyte := congrArg (·[i]?) hfilled
  rw [List.take_length] at hbyte
  rw [← hbyte, List.getElem?_take_of_lt (by omega)]

/-- **A response that does not fit is not.**  If the header passes, what is decoded
reaches past the payload, or begins with a header that was not copied. -/
theorem not_decodesOwn_of_accepts {r : Response} (hbig : ¬ r.Fits) (ps : Parts r) (s : Statics)
    (ha : c.Accepts (headerSeen ps s)) :
    ¬ DecodesOwn r (ps.deliver (rspProc c onPart onTotal decode m) s) := by
  intro hown
  obtain ⟨pre, p, t, hrun, ht, hheader, hnone⟩ := deliver_headerSeen c onPart onTotal decode m ps s
  have hdecoded := (rspProc_decoded_eq_some c onPart onTotal decode m p t).2
    ⟨ht, (c.accepts_congr hheader).2 ha, rfl⟩
  obtain ⟨hlen, hcovered⟩ := hown.window pre _ [] _ hrun hdecoded
  by_cases hfirst : ps.first.length ≤ bufferSize
  · rw [hdrLen_congr hheader, headerSeen, if_pos hfirst] at hlen
    have hsize := r.size
    apply hbig
    rw [Response.Fits, hsize, bufferSize]
    omega
  · obtain ⟨⟨q, hq, hcov⟩, -⟩ := hcovered 0 (Nat.lt_add_right _ (by decide))
    exact hnone (not_le.1 hfirst) q (hrun ▸ hq) hcov

/-- A response that is not accepted is not decoded. -/
theorem decodesOwn_of_not_accepts {r : Response} (ps : Parts r) (s : Statics)
    (ha : ¬ c.Accepts (headerSeen ps s)) :
    DecodesOwn r (ps.deliver (rspProc c onPart onTotal decode m) s) := by
  obtain ⟨pre, p, t, hrun, hc⟩ := deliver_completion c onPart onTotal decode m ps s
  obtain ⟨pre', p', t', hrun', -, hheader, -⟩ := deliver_headerSeen c onPart onTotal decode m ps s
  refine ⟨deliver_inside c onPart onTotal decode m ps s, fun pre'' q post len hsplit hq => ?_⟩
  rw [hrun] at hsplit hrun'
  obtain ⟨-, hlast⟩ := List.append_inj' hrun' rfl
  obtain ⟨-, rfl, -⟩ := hc.last c onPart onTotal decode m hsplit hq
  rw [List.singleton_inj.1 hlast] at hq
  obtain ⟨-, hacc, -⟩ := (rspProc_decoded_eq_some c onPart onTotal decode m p' t').1 hq
  exact absurd ((c.accepts_congr hheader).1 hacc) ha

end Overflow

/-- **When a handler decodes only what it received.**  For every response of any
size, every split of it, and whatever the buffer held. -/
theorem decodesOwn_iff (z : ZcborDecoder) (m : Memory) (h : RspHandler) {r : Response}
    (ps : Parts r) (s : Statics) :
    DecodesOwn r (ps.deliver (h.proc z m) s) ↔
      r.Fits ∨ ¬ h.check.Accepts (headerSeen ps s) := by
  obtain ⟨onPart, onTotal, decode, hproc⟩ := h.proc_eq z m
  rw [hproc]
  constructor
  · intro hown
    by_contra hno
    rw [not_or, not_not] at hno
    exact not_decodesOwn_of_accepts _ onPart onTotal decode m hno.1 ps s hno.2 hown
  · rintro (hfits | hno)
    · exact decodesOwn_of_fits _ onPart onTotal decode m hfits ps s
    · exact decodesOwn_of_not_accepts _ onPart onTotal decode m ps s hno

/-- An upload response with a payload of 301 bytes. -/
def Response.oneTooLong : Response where
  bytes := [3, 0, 1, 45, 0, 1, 0, 1] ++ List.replicate 301 0
  size := by
    rw [List.length_append, List.length_replicate]
    decide

/-- Its header, and then its payload. -/
def Parts.oneTooLong : Parts .oneTooLong where
  first := [3, 0, 1, 45, 0, 1, 0, 1]
  others := [List.replicate 301 0]
  header := by decide
  whole := by rw [List.flatten_singleton]; rfl

/-- The upload handler decodes 301 bytes of a payload of 300. -/
theorem not_decodesOwn_oneTooLong :
    ¬ DecodesOwn .oneTooLong
      (Parts.oneTooLong.deliver (RspHandler.upload.proc documented .zero) .zero) := by
  refine not_decodesOwn_of_accepts uploadCheck _ _ _ .zero ?_ Parts.oneTooLong .zero ?_
  · rw [Response.Fits, Response.size]
    decide
  · rw [headerSeen, if_pos (by decide)]
    decide

end Smp
end NrfSamples
