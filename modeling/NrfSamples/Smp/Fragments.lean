/-
# Fragmentation independence

What `smp_upload_rsp_proc`, `smp_list_rsp_proc` and `smp_echo_rsp_proc` in
`bootloader_samples/client_smp/smp_client_ble/src/main.c` do with a response that
fits the buffer does not depend on how it is split, nor on what the buffer held.

`fragments_agree`: the calls before the last only copy, and the last call has the
effect of a response in one part.  `smp_echo_rsp_proc` begins every call with a
line that gives the size of the part, so its lines do depend on the split; apart
from that line the effects are the same (`Effect.after`).
-/

import NrfSamples.Smp.Overflow

namespace NrfSamples
namespace Smp

open Cbor Zcbor

/-- The effects of a call that printed these lines first. -/
def Effect.after (lines : List Print) (e : Effect) : Effect := { e with log := lines ++ e.log }

theorem Effect.after_nil (e : Effect) : e.after [] = e := rfl

theorem Effect.print_after (e : Effect) (lines : List Print) (p : Print) :
    (e.after lines).print p = (e.print p).after lines := by
  rw [Effect.print, Effect.print, Effect.after, Effect.after, List.append_assoc]

/-- A call that copies the part `p` into the buffer of `s` and does nothing else, besides
printing the lines of a part. -/
def OnlyCopies (onPart : RspPart → List Print) (p : RspPart) (s : Statics) (q : RspResult) : Prop :=
  p.Inside ∧ q = ⟨some (p.offset, p.data.length), receive p s.rsp, none, s.effect (onPart p)⟩

/-- The parts from `offset` on, as `bt_dfu_smp` delivers them. -/
def partsFrom (total : ℕ) : ℕ → List (List UInt8) → List RspPart
  | _, [] => []
  | offset, d :: ds => ⟨offset, d, total⟩ :: partsFrom total (offset + d.length) ds

/-- The parts of a response, as they are delivered. -/
def Parts.delivered {r : Response} (ps : Parts r) : List RspPart :=
  partsFrom (headerSize + hdrLen ps.first) 0 (ps.first :: ps.others)

/-- Calls that only copy, one part after the other, each into what the one before left. -/
def CopyParts (onPart : RspPart → List Print) : List RspPart → Statics → List RspResult → Prop
  | _, _, [] => True
  | [], _, _ :: _ => False
  | p :: ps, s, q :: qs => OnlyCopies onPart p s q ∧ CopyParts onPart ps q.statics qs

/-- What a handler does with a complete response, when it has printed these lines. -/
def responseEffect (c : HeaderCheck) (onTotal : List Print)
    (decode : List UInt8 → Effect → Effect) (r : Response) (s : Statics) (lines : List Print) :
    Effect :=
  match c.reject r.bytes with
  | some line => (s.effect (lines ++ onTotal)).print line
  | none => decode (payloadOf r.bytes) (s.effect (lines ++ onTotal))

section Calls

variable (c : HeaderCheck) (onPart : RspPart → List Print) (onTotal : List Print)
  (decode : List UInt8 → Effect → Effect) (m : Memory)

/-- The line printed when a check fails depends on the header only. -/
theorem HeaderCheck.reject_congr {as bs : List UInt8}
    (h : as.take headerSize = bs.take headerSize) : c.reject as = c.reject bs := by
  have hbyte : ∀ i, i < headerSize → byteAt as i = byteAt bs i := by
    intro i hi
    rw [← byteAt_take as hi, h, byteAt_take bs hi]
  have hop : hdrOp as = hdrOp bs := hbyte 0 (by decide)
  have hid : hdrId as = hdrId bs := hbyte 7 (by decide)
  have hgroup : hdrGroup as = hdrGroup bs := by
    rw [hdrGroup, hdrGroup, hbyte 4 (by decide), hbyte 5 (by decide)]
  rw [HeaderCheck.reject, HeaderCheck.reject, hop, hgroup, hid]

/-- A call with an incomplete response. -/
theorem rspProc_onlyCopies {p : RspPart} (hp : p.Inside) (htotal : p.totalCheck = false)
    (s : Statics) : OnlyCopies onPart p s (rspProc c onPart onTotal decode m p s) := by
  refine ⟨hp, ?_⟩
  have hline : onPart p ++ overflowLine p = onPart p := by
    rw [overflowLine, if_pos hp, List.append_nil]
  rw [rspProc, htotal, hline, copyOf, if_pos hp]
  rfl

/-- **All calls but the last only copy.**  Induction on the parts. -/
theorem receiveParts_copyParts (total : ℕ) (ds : List (List UInt8)) {offset : ℕ}
    (hfit : offset + ds.flatten.length ≤ bufferSize) (s : Statics) :
    CopyParts onPart (partsFrom total offset ds) s
      (receiveParts (rspProc c onPart onTotal decode m) total offset ds s).dropLast := by
  induction ds generalizing offset s with
  | nil => trivial
  | cons d ds ih =>
    rw [List.flatten_cons, List.length_append] at hfit
    rw [receiveParts]
    by_cases htotal : (⟨offset, d, total⟩ : RspPart).totalCheck = true
    · simp only [htotal, if_true, List.dropLast_singleton]
      trivial
    · rw [Bool.not_eq_true] at htotal
      simp only [htotal, Bool.false_eq_true, if_false]
      have hin : (⟨offset, d, total⟩ : RspPart).Inside :=
        show offset + d.length ≤ bufferSize by omega
      have hfit' : (offset + d.length) + ds.flatten.length ≤ bufferSize := by omega
      have hrest := ih hfit' (rspProc c onPart onTotal decode m ⟨offset, d, total⟩ s).statics
      cases hcalls : receiveParts (rspProc c onPart onTotal decode m) total (offset + d.length) ds
          (rspProc c onPart onTotal decode m ⟨offset, d, total⟩ s).statics with
      | nil => trivial
      | cons x xs =>
        rw [hcalls] at hrest
        exact ⟨rspProc_onlyCopies c onPart onTotal decode m hin htotal s, hrest⟩

omit c onTotal decode m in
/-- The effect of each of these calls.  They keep the stored hashes. -/
theorem CopyParts.eff {onPart : RspPart → List Print} {ps : List RspPart} {s : Statics}
    {qs : List RspResult} (h : CopyParts onPart ps s qs) :
    ∀ q ∈ qs, ∃ p, q.eff = s.effect (onPart p) := by
  induction qs generalizing ps s with
  | nil => simp
  | cons q qs ih =>
    cases ps with
    | nil => exact h.elim
    | cons p ps =>
      obtain ⟨⟨-, hq⟩, hqs⟩ := h
      have heff : q.eff = s.effect (onPart p) := by rw [hq]
      have hsame : ∀ log, q.statics.effect log = s.effect log := by
        intro log
        rw [RspResult.statics, heff]
        rfl
      refine List.forall_mem_cons.2 ⟨⟨p, heff⟩, fun q' hq' => ?_⟩
      obtain ⟨p', heff'⟩ := ih hqs q' hq'
      exact ⟨p', heff'.trans (hsame _)⟩

/-- **The last call.**  It has the effect of the complete response. -/
theorem Completion.last_effect {r : Response} {s t : Statics} {pre : List RspResult} {p : RspPart}
    (hc : Completion (rspProc c onPart onTotal decode m) r.bytes 0 s pre p t) (hfits : r.Fits) :
    (rspProc c onPart onTotal decode m p t).copy = some (p.offset, p.data.length) ∧
      (rspProc c onPart onTotal decode m p t).decoded =
        (if c.Accepts r.bytes then some (hdrLen r.bytes) else none) ∧
      (rspProc c onPart onTotal decode m p t).eff =
        responseEffect c onTotal decode r s (onPart p) := by
  have hfilled := hc.filled hfits (filled_zero r.bytes s.rsp)
  have hin : p.Inside := show p.offset + p.data.length ≤ bufferSize by
    rw [hc.size]
    exact hfits
  have heffect : ∀ log, t.effect log = s.effect log := by
    intro log
    rw [Statics.effect, Statics.effect, hc.primary, hc.secondary]
  have haccepts := c.accepts_congr hfilled.header
  have hreject := c.reject_congr hfilled.header
  refine ⟨by rw [rspProc_copy, copyOf, if_pos hin], ?_, ?_⟩
  · by_cases ha : c.Accepts r.bytes
    · rw [if_pos ha, rspProc_decoded_eq_some]
      exact ⟨hc.complete, haccepts.2 ha, (hdrLen_congr hfilled.header).symm⟩
    · rw [if_neg ha, Option.eq_none_iff_forall_not_mem]
      intro len hlen
      exact ha (haccepts.1 ((rspProc_decoded_eq_some c onPart onTotal decode m p t).1 hlen).2.1)
  · rw [rspProc, hc.complete, hreject, overflowLine, if_pos hin, List.append_nil,
      hfilled.window hfits, heffect, responseEffect]
    cases c.reject r.bytes <;> rfl

/-- **The calls for a response that fits.** -/
theorem deliver_fragments {r : Response} (hfits : r.Fits) (ps : Parts r) (s : Statics) :
    ∃ pre last p, ps.deliver (rspProc c onPart onTotal decode m) s = pre ++ [last] ∧
      CopyParts onPart ps.delivered s pre ∧ p.offset + p.data.length = r.bytes.length ∧
      last.copy = some (p.offset, p.data.length) ∧
      last.decoded = (if c.Accepts r.bytes then some (hdrLen r.bytes) else none) ∧
      last.eff = responseEffect c onTotal decode r s (onPart p) := by
  obtain ⟨pre, p, t, hrun, hc⟩ := deliver_completion c onPart onTotal decode m ps s
  refine ⟨pre, _, p, hrun, ?_, hc.size, hc.last_effect c onPart onTotal decode m hfits⟩
  have hflat : (ps.first :: ps.others).flatten.length ≤ bufferSize := by
    rw [List.flatten_cons, ps.whole]
    exact hfits
  have honly := receiveParts_copyParts c onPart onTotal decode m
    (headerSize + hdrLen ps.first) (ps.first :: ps.others)
    (show 0 + (ps.first :: ps.others).flatten.length ≤ bufferSize by omega) s
  have hdrop : (ps.deliver (rspProc c onPart onTotal decode m) s).dropLast = pre := by
    rw [hrun, List.dropLast_concat]
  rwa [← hdrop]

end Calls

/-! ### The handlers of the client -/

/-- The lines a handler begins every call with, by the size of the part. -/
def RspHandler.partLines : RspHandler → ℕ → List Print
  | .echo, n => [⟨"Echo response part received, size: %zu.\n", [.int n]⟩]
  | _, _ => []

/-- The lines a handler begins to decode with. -/
def RspHandler.totalLines : RspHandler → List Print
  | .echo => [⟨"Total response received - decoding\n", []⟩]
  | _ => []

def RspHandler.decode (z : ZcborDecoder) (m : Memory) :
    RspHandler → List UInt8 → Effect → Effect
  | .upload => uploadEffect z m
  | .list => listEffect z
  | .echo => echoEffect z

theorem RspHandler.proc_eq_rspProc (z : ZcborDecoder) (m : Memory) (h : RspHandler) :
    h.proc z m =
      rspProc h.check (fun p => h.partLines p.data.length) h.totalLines (h.decode z m) m := by
  cases h <;> rfl

/-- A program that does the same whatever has been printed. -/
def LogBlind {σ α : Type} (p : Proc σ α) : Prop :=
  ∀ s lines, p ⟨s.zsd, s.eff.after lines⟩ = ((p s).1, ⟨(p s).2.zsd, (p s).2.eff.after lines⟩)

section LogBlind

variable {σ α β : Type}

theorem LogBlind.pure (a : α) : LogBlind (pure a : Proc σ α) := fun _ _ => rfl

theorem LogBlind.ret : LogBlind (ret : Proc σ α) := fun _ _ => rfl

theorem LogBlind.call (f : σ → α × σ) : LogBlind (call f) := fun _ _ => rfl

theorem LogBlind.storeTo (array : String) (size used : ℕ) :
    LogBlind (storeTo array size used : Proc σ Unit) := fun _ _ => rfl

theorem LogBlind.printk (fmt : String) (args : List Arg) :
    LogBlind (printk fmt args : Proc σ Unit) := fun s lines =>
  congrArg (fun e => (some (), (⟨s.zsd, e⟩ : Exec σ))) (s.eff.print_after lines ⟨fmt, args⟩)

theorem LogBlind.bind {m : Proc σ α} {g : α → Proc σ β} (hm : LogBlind m)
    (hg : ∀ a, LogBlind (g a)) : LogBlind (m >>= g) := by
  intro s lines
  have hrun := hm s lines
  rcases h : m s with ⟨_ | a, t⟩
  · rw [h] at hrun
    rw [Proc.bind_none h, Proc.bind_none hrun]
  · rw [h] at hrun
    rw [Proc.bind_some h, Proc.bind_some hrun, hg a t lines]

theorem LogBlind.ite {c : Prop} [Decidable c] {p q : Proc σ α} (hp : LogBlind p)
    (hq : LogBlind q) : LogBlind (if c then p else q) := by
  split_ifs
  · exact hp
  · exact hq

theorem LogBlind.rejectIf (b : Bool) (fmt : String) (args : List Arg) :
    LogBlind (rejectIf b fmt args : Proc σ Unit) :=
  .ite (.bind (.printk fmt args) fun _ => .ret) (.pure ())

theorem LogBlind.orReturn (z : ZcborDecoder) (f : z.State → Option α × z.State) (msg : String) :
    LogBlind (orReturn z f msg) :=
  .bind (.call f) fun a => by
    cases a with
    | some a => exact .pure a
    | none => exact .bind (.call _) fun _ => .bind (.printk _ _) fun _ => .ret

theorem LogBlind.printChecked (z : ZcborDecoder) (line : Option Print) (fmt : String) :
    LogBlind (printChecked z line fmt) :=
  .bind (.call _) fun _ => .ite
    (by cases line with
      | some p => exact .printk _ _
      | none => exact .pure ())
    (.bind (.call _) fun _ => .printk _ _)

end LogBlind

theorem logBlind_echoDecode (z : ZcborDecoder) : LogBlind (echoDecode z) :=
  .bind (.call _) fun _ => .bind (.orReturn z _ _) fun _ => .bind (.rejectIf _ _ _) fun _ =>
  .bind (.storeTo _ _ _) fun _ => .bind (.orReturn z _ _) fun _ => .bind (.rejectIf _ _ _) fun _ =>
  .bind (.storeTo _ _ _) fun _ => .bind (.call _) fun _ => .printChecked z _ _

theorem Statics.effect_append (s : Statics) (lines log : List Print) :
    s.effect (lines ++ log) = (s.effect log).after lines := rfl

/-- The effect of a response behind the lines of its last part. -/
theorem RspHandler.responseEffect_after (z : ZcborDecoder) (m : Memory) (h : RspHandler)
    (r : Response) (s : Statics) (n : ℕ) :
    responseEffect h.check h.totalLines (h.decode z m) r s (h.partLines n) =
      (responseEffect h.check h.totalLines (h.decode z m) r s []).after (h.partLines n) := by
  cases h with
  | upload => exact (Effect.after_nil _).symm
  | list => exact (Effect.after_nil _).symm
  | echo =>
    rw [responseEffect, responseEffect, Statics.effect_append, List.nil_append]
    cases RspHandler.echo.check.reject r.bytes with
    | some line => exact Effect.print_after _ _ _
    | none =>
      exact congrArg (fun p => p.2.eff) (logBlind_echoDecode z
        ⟨z.newDecodeState 3 (payloadOf r.bytes) 1, s.effect RspHandler.echo.totalLines⟩
        (RspHandler.echo.partLines n))

/-- The same decision and effect for every split of a response and every content of
the buffer: `decoded` and `e`, apart from the lines of the part. -/
structure Agrees (h : RspHandler) {r : Response} (ps : Parts r) (decoded : Option ℕ) (e : Effect)
    (s : Statics) (results : List RspResult) : Prop where
  copies : CopyParts (fun p => h.partLines p.data.length) ps.delivered s results.dropLast
  last : ∃ last o n, results.getLast? = some last ∧ last.copy = some (o, n) ∧
    o + n = r.bytes.length ∧ last.decoded = decoded ∧ last.eff = e.after (h.partLines n)

/-- **A response has one effect**, however it is split and whatever the buffer held. -/
theorem fragments_agree (z : ZcborDecoder) (m : Memory) (h : RspHandler) (r : Response)
    (hfits : r.Fits) (hashPrimary hashSecondary : List UInt8) :
    ∃ decoded e, ∀ (ps : Parts r) (b : SmpBuffer),
      Agrees h ps decoded e ⟨b, hashPrimary, hashSecondary⟩
        (ps.deliver (h.proc z m) ⟨b, hashPrimary, hashSecondary⟩) := by
  refine ⟨if h.check.Accepts r.bytes then some (hdrLen r.bytes) else none,
    responseEffect h.check h.totalLines (h.decode z m) r
    ⟨⟨List.replicate bufferSize 0, List.length_replicate⟩, hashPrimary, hashSecondary⟩ [],
    fun ps b => ?_⟩
  rw [h.proc_eq_rspProc]
  obtain ⟨pre, last, p, hrun, hpre, hsize, hcopy, hdecoded, heff⟩ := deliver_fragments h.check
    (fun p => h.partLines p.data.length) h.totalLines (h.decode z m) m hfits ps
    ⟨b, hashPrimary, hashSecondary⟩
  rw [hrun]
  refine ⟨by rwa [List.dropLast_concat], last, p.offset, p.data.length, List.getLast?_concat,
    hcopy, hsize, hdecoded, ?_⟩
  rw [heff, h.responseEffect_after]
  rfl

/-- The echo response with the payload `{_ "r": "a"}`. -/
def Response.echoA : Response where
  bytes := [3, 0, 0, 6, 0, 0, 0, 0] ++ [0xBF, 0x61, 0x72, 0x61, 0x61, 0xFF]
  size := by decide

/-- Its header, and then its payload. -/
def Parts.echoA : Parts .echoA where
  first := [3, 0, 0, 6, 0, 0, 0, 0]
  others := [[0xBF, 0x61, 0x72, 0x61, 0x61, 0xFF]]
  header := by decide
  whole := rfl

/-- That response has one effect. -/
theorem fragments_agree_echoA :
    ∃ decoded e, ∀ (ps : Parts .echoA) (b : SmpBuffer), Agrees .echo ps decoded e ⟨b, [], []⟩
      (ps.deliver (RspHandler.echo.proc documented .zero) ⟨b, [], []⟩) :=
  fragments_agree documented .zero .echo .echoA (by decide) [] []

/-- The first of its two calls does not only copy: it prints the size of its part. -/
theorem not_onlyCopies_echoA :
    ¬ CopyParts (fun _ => []) Parts.echoA.delivered .zero
      (Parts.echoA.deliver (RspHandler.echo.proc documented .zero) .zero).dropLast := by
  intro h
  have hlines : (Parts.echoA.deliver (RspHandler.echo.proc documented .zero) .zero).dropLast.map
      (fun q => q.eff.log.length) = [1] := by decide +kernel
  obtain ⟨q, hq, hone⟩ := List.mem_map.1 (hlines ▸ List.mem_singleton_self 1)
  obtain ⟨p, heff⟩ := h.eff q hq
  rw [heff] at hone
  cases hone

end Smp
end NrfSamples
