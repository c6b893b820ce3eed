/-
# What `smp_upload_rsp_proc` reports

`smp_upload_rsp_proc` in `bootloader_samples/client_smp/smp_client_ble/src/main.c`
gives the semaphore or leaves the upload waiting for it.  `smpUploadRspProc_reports`:
it does not do the latter in silence.  Every complete response that does not give
the semaphore makes it print one line, and that line has the format of one of its
checks; a response that does give it is reported at most for what follows its two
pairs.
-/

import NrfSamples.Smp.UploadRsp

namespace NrfSamples
namespace Smp

open Cbor Zcbor

/-- The lines of the checks, in the order in which they are made. -/
def uploadReasons : List String :=
  ["Unexpected operation code (%u)!\n", "Unexpected command group (%u)!\n",
    "Unexpected command (%u)", "Decoding error, start_decode (err: %d)\n",
    "Decoding error, rc key (err: %d)\n",
    "Invalid data received (rc key). Length %d is not equal 2\n",
    "Invalid data received (rc key). String '%.2s' is not equal to 'rc'\n",
    "Decoding error, rc value (err: %d)\n", "Error in image upload response: %d\n",
    "Decoding error, offset key (err: %d)\n",
    "Invalid data received (rc key). Length %d is not equal 3\n",
    "Decoding error, offset value (err: %d)\n"]

/-- The line about what follows the two pairs. -/
def unclosedLine : Print :=
  ⟨"Cannot print received image upload CBOR stream (err: %d)\n", [.err]⟩

/-! ### Programs that say why they end -/

section Guards

variable {σ α β : Type} {fmts : List String}

/-- From the effects `e` one line was added, with one of these formats. -/
def Says (fmts : List String) (e e' : Effect) : Prop :=
  e'.gives = e.gives ∧ ∃ line, e'.log = e.log ++ [line] ∧ line.fmt ∈ fmts

/-- The program goes on without a line, or says why it ends. -/
structure Guards (fmts : List String) (p : Proc σ α) : Prop where
  goes : ∀ s a, (p s).1 = some a →
    (p s).2.eff.gives = s.eff.gives ∧ (p s).2.eff.log = s.eff.log
  ends : ∀ s, (p s).1 = none → Says fmts s.eff (p s).2.eff

/-- The program gives the semaphore, with no line or the one about the end, or says why
it does not. -/
def Reports (fmts : List String) (p : Proc σ Unit) : Prop :=
  ∀ s, ((p s).2.eff.gives = s.eff.gives + 1 ∧
      ((p s).2.eff.log = s.eff.log ∨ (p s).2.eff.log = s.eff.log ++ [unclosedLine])) ∨
    Says fmts s.eff (p s).2.eff

/-- **A check in front of a program.** -/
theorem Guards.bind {p : Proc σ α} {f : α → Proc σ Unit} (hp : Guards fmts p)
    (hf : ∀ a, Reports fmts (f a)) : Reports fmts (p >>= f) := by
  intro s
  rcases h : p s with ⟨_ | a, t⟩
  · have hsays := hp.ends s (by rw [h])
    rw [h] at hsays
    rw [Proc.bind_none h]
    exact .inr hsays
  · obtain ⟨hgives, hlog⟩ := hp.goes s a (by rw [h])
    rw [h] at hgives hlog
    have hrest := hf a t
    rw [Says, hgives, hlog] at hrest
    rw [Proc.bind_some h]
    exact hrest

theorem guards_call (f : σ → α × σ) : Guards fmts (call f) :=
  ⟨fun _ _ _ => ⟨rfl, rfl⟩, fun _ h => by cases h⟩

theorem guards_copyString (array : String) (size : ℕ) (value : List UInt8) :
    Guards fmts (copyString array size value : Proc σ Unit) :=
  ⟨fun _ _ _ => ⟨rfl, rfl⟩, fun _ h => by cases h⟩

theorem guards_rejectIf (b : Bool) {fmt : String} (args : List Arg) (h : fmt ∈ fmts) :
    Guards fmts (rejectIf b fmt args : Proc σ Unit) := by
  cases b with
  | true => exact ⟨(fun _ _ h => by cases h), fun _ _ => ⟨rfl, _, rfl, h⟩⟩
  | false => exact ⟨fun _ _ _ => ⟨rfl, rfl⟩, fun _ h => by cases h⟩

theorem guards_orReturn (z : ZcborDecoder) (f : z.State → Option α × z.State) {msg : String}
    (h : msg ∈ fmts) : Guards fmts (orReturn z f msg) := by
  have hcases : ∀ s, (∃ a t, orReturn z f msg s = (some a, ⟨t, s.eff⟩)) ∨
      ∃ t, orReturn z f msg s = (none, ⟨t, s.eff.print ⟨msg, [.err]⟩⟩) := by
    intro s
    rw [orReturn, call_bind]
    cases (f s.zsd).1 with
    | some a => exact .inl ⟨a, _, rfl⟩
    | none => exact .inr ⟨_, rfl⟩
  constructor
  · intro s a ha
    rcases hcases s with ⟨a', t, hrun⟩ | ⟨t, hrun⟩
    · rw [hrun]
      exact ⟨rfl, rfl⟩
    · rw [hrun] at ha
      cases ha
  · intro s hnone
    rcases hcases s with ⟨a', t, hrun⟩ | ⟨t, hrun⟩
    · rw [hrun] at hnone
      cases hnone
    · rw [hrun]
      exact ⟨rfl, _, rfl, h⟩

end Guards

/-! ### The handler -/

/-- The end of the decoding: the map is closed or not, the semaphore is given. -/
theorem reports_end (z : ZcborDecoder) :
    Reports uploadReasons (do
      printChecked z none "Cannot print received image upload CBOR stream (err: %d)\n"
      kSemGive : Proc z.State Unit) := by
  intro s
  left
  rw [printChecked]
  cases hok : z.checkError s.zsd with
  | true =>
    refine ⟨?_, .inl ?_⟩
    all_goals
      simp [bind, call, hok, pure, kSemGive, effect]
  | false =>
    refine ⟨?_, .inr ?_⟩
    all_goals
      simp [bind, call, hok, printk, kSemGive, effect, Effect.print, unclosedLine]

/-- **The decoding.**  One check after the other. -/
theorem uploadDecode_reports (z : ZcborDecoder) (m : Memory) :
    Reports uploadReasons (uploadDecode z m) := by
  unfold uploadDecode
  refine (guards_orReturn z _ (by simp [uploadReasons])).bind fun _ => ?_
  refine (guards_orReturn z _ (by simp [uploadReasons])).bind fun key => ?_
  refine (guards_rejectIf _ _ (by simp [uploadReasons])).bind fun _ => ?_
  refine (guards_rejectIf _ _ (by simp [uploadReasons])).bind fun _ => ?_
  refine (guards_copyString _ _ _).bind fun _ => ?_
  refine (guards_orReturn z _ (by simp [uploadReasons])).bind fun rc => ?_
  refine (guards_rejectIf _ _ (by simp [uploadReasons])).bind fun _ => ?_
  refine (guards_orReturn z _ (by simp [uploadReasons])).bind fun key' => ?_
  refine (guards_rejectIf _ _ (by simp [uploadReasons])).bind fun _ => ?_
  refine (guards_copyString _ _ _).bind fun _ => ?_
  refine (guards_orReturn z _ (by simp [uploadReasons])).bind fun _ => ?_
  exact (guards_call _).bind fun _ => reports_end z

/-- The line of a header check. -/
theorem reject_mem_reasons {c : HeaderCheck} {bs : List UInt8} {line : Print}
    (h : c.reject bs = some line) : line.fmt ∈ uploadReasons := by
  unfold HeaderCheck.reject at h
  split_ifs at h
  all_goals
    obtain rfl := Option.some.inj h
    simp [uploadReasons]

/-- **No response fails in silence.**  For every part at every offset, and every content
of the buffer: an incomplete response gives nothing and is not reported, besides that it
does not fit; a complete one gives the semaphore, or is reported with one reason. -/
theorem smpUploadRspProc_reports (z : ZcborDecoder) (m : Memory) (p : RspPart) (s : Statics) :
    if p.totalCheck then
      ((smpUploadRspProc z m p s).eff.gives = 1 ∧
          ((smpUploadRspProc z m p s).eff.log = overflowLine p ∨
            (smpUploadRspProc z m p s).eff.log = overflowLine p ++ [unclosedLine])) ∨
        ((smpUploadRspProc z m p s).eff.gives = 0 ∧
          ∃ line, (smpUploadRspProc z m p s).eff.log = overflowLine p ++ [line] ∧
            line.fmt ∈ uploadReasons)
    else
      (smpUploadRspProc z m p s).eff.gives = 0 ∧
        (smpUploadRspProc z m p s).eff.log = overflowLine p := by
  unfold smpUploadRspProc rspProc
  simp only [List.nil_append, List.append_nil]
  split_ifs with hwhole
  · cases hreject : uploadCheck.reject (receive p s.rsp).bytes with
    | some line => exact .inr ⟨rfl, line, rfl, reject_mem_reasons hreject⟩
    | none => exact uploadDecode_reports z m ⟨_, s.effect (overflowLine p)⟩
  · exact ⟨rfl, rfl⟩

end Smp
end NrfSamples
