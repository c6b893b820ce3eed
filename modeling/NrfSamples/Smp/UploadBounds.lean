/-
# The arrays of an upload response

`smp_upload_rsp_proc` in `bootloader_samples/client_smp/smp_client_ble/src/main.c`
copies two keys into arrays of five bytes, each with a NUL behind it, and compares
their lengths first: the one with 2, the other with 3.  The handler of an image
list has the same copies and no such comparison.

`Ensures` is the rule of a handler's programs with early returns: what a program
keeps, and what is known where it goes on.  `smpUploadRspProc_inside`: every store
of a call is inside its array and the copy of the part inside `smp_rsp_buff`, for
every part and every content of the buffer, whatever zcbor makes of it.
-/

import NrfSamples.Smp.ListBounds
import NrfSamples.Smp.UploadRsp

namespace NrfSamples
namespace Smp

open Cbor Zcbor

section Ensures

variable {σ α β : Type} {I : Effect → Prop}

/-- The program keeps `I`, and where it goes on, it does so with a result of `Q`. -/
def Ensures (I : Effect → Prop) (p : Proc σ α) (Q : α → Prop) : Prop :=
  ∀ s, I s.eff → I (p s).2.eff ∧ ∀ a, (p s).1 = some a → Q a

theorem Ensures.bind {p : Proc σ α} {f : α → Proc σ β} {Q : α → Prop} {R : β → Prop}
    (hp : Ensures I p Q) (hf : ∀ a, Q a → Ensures I (f a) R) : Ensures I (p >>= f) R := by
  intro s hs
  obtain ⟨hi, hq⟩ := hp s hs
  rcases h : p s with ⟨_ | a, t⟩
  · rw [Proc.bind_none h]
    rw [h] at hi
    exact ⟨hi, fun _ hnone => by cases hnone⟩
  · rw [Proc.bind_some h]
    rw [h] at hi hq
    exact hf a (hq a rfl) t hi

/-- What is known of the result can be forgotten. -/
theorem Ensures.weaken {p : Proc σ α} {Q R : α → Prop} (hp : Ensures I p Q)
    (h : ∀ a, Q a → R a) : Ensures I p R :=
  fun s hs => ⟨(hp s hs).1, fun a ha => h a ((hp s hs).2 a ha)⟩

theorem Ensures.pure (a : α) : Ensures I (pure a : Proc σ α) fun b => b = a :=
  fun _ hs => ⟨hs, fun _ hb => (Option.some.inj hb).symm⟩

theorem Ensures.ret (Q : α → Prop) : Ensures I (ret : Proc σ α) Q :=
  fun _ hs => ⟨hs, fun _ hnone => by cases hnone⟩

theorem Ensures.call (f : σ → α × σ) : Ensures I (call f) fun _ => True :=
  fun _ hs => ⟨hs, fun _ _ => trivial⟩

theorem Ensures.effect {f : Effect → Effect} (hf : ∀ e, I e → I (f e)) :
    Ensures I (effect f : Proc σ Unit) fun _ => True :=
  fun s hs => ⟨hf s.eff hs, fun _ _ => trivial⟩

section Print

variable (hprint : ∀ e p, I e → I (e.print p))

include hprint

theorem Ensures.printk (fmt : String) (args : List Arg) :
    Ensures I (printk fmt args : Proc σ Unit) fun _ => True :=
  .effect fun e => hprint e _

/-- Behind a check its condition is false. -/
theorem Ensures.rejectIf (b : Bool) (fmt : String) (args : List Arg) :
    Ensures I (rejectIf b fmt args : Proc σ Unit) fun _ => b = false := by
  cases b with
  | true => exact .bind (.printk hprint fmt args) fun _ _ => .ret _
  | false => exact (Ensures.pure ()).weaken fun _ _ => rfl

theorem Ensures.orReturn (z : ZcborDecoder) (f : z.State → Option α × z.State) (msg : String) :
    Ensures I (orReturn z f msg) fun _ => True :=
  .bind (.call f) fun a _ => by
    cases a with
    | some a => exact (Ensures.pure a).weaken fun _ _ => trivial
    | none =>
      exact .bind (.call _) fun _ _ => .bind (.printk hprint _ _) fun _ _ => .ret _

theorem Ensures.printChecked (z : ZcborDecoder) (line : Option Print) (fmt : String) :
    Ensures I (printChecked z line fmt) fun _ => True :=
  .bind (.call _) fun ok _ => by
    cases ok with
    | true =>
      cases line with
      | some p => exact .printk hprint _ _
      | none => exact (Ensures.pure ()).weaken fun _ _ => trivial
    | false => exact .bind (.call _) fun _ _ => .printk hprint _ _

end Print

end Ensures

/-! ### The copies -/

theorem print_inside (e : Effect) (p : Print) (h : e.Inside) : (e.print p).Inside := h

/-- A string that fits, with the NUL behind it. -/
theorem ensures_copyString {σ : Type} {array : String} {size : ℕ} {value : List UInt8}
    (h : value.length + 1 ≤ size) :
    Ensures Effect.Inside (copyString array size value : Proc σ Unit) fun _ => True :=
  .effect fun e he => (inside_store e _).2 ⟨he, h⟩

/-- **The copies of the decoding.**  Each stands behind the check of its length. -/
theorem uploadDecode_inside (z : ZcborDecoder) (m : Memory) :
    Ensures Effect.Inside (uploadDecode z m) fun _ => True := by
  unfold uploadDecode
  refine .bind (.orReturn print_inside z _ _) fun _ _ => ?_
  refine .bind (.orReturn print_inside z _ _) fun key _ => ?_
  refine .bind (.rejectIf print_inside _ _ _) fun _ hkey => ?_
  refine .bind (.rejectIf print_inside _ _ _) fun _ _ => ?_
  have hrc : key.length = 2 := by simpa using hkey
  refine .bind (ensures_copyString (by rw [hrc]; decide)) fun _ _ => ?_
  refine .bind (.orReturn print_inside z _ _) fun _ _ => ?_
  refine .bind (.rejectIf print_inside _ _ _) fun _ _ => ?_
  refine .bind (.orReturn print_inside z _ _) fun key' _ => ?_
  refine .bind (.rejectIf print_inside _ _ _) fun _ hkey' => ?_
  have hoff : key'.length = 3 := by simpa using hkey'
  refine .bind (ensures_copyString (by rw [hoff]; decide)) fun _ _ => ?_
  refine .bind (.orReturn print_inside z _ _) fun _ _ => ?_
  refine .bind (.call _) fun _ _ => ?_
  refine .bind (.printChecked print_inside z _ _) fun _ _ => ?_
  exact .effect fun _ he => he

/-- **No call of the handler writes past an array.**  For every part, at whatever
offset, and every content of the buffer. -/
theorem smpUploadRspProc_inside (z : ZcborDecoder) (m : Memory) (p : RspPart) (s : Statics) :
    (smpUploadRspProc z m p s).eff.Inside ∧
      ∀ o n, (smpUploadRspProc z m p s).copy = some (o, n) → o + n ≤ bufferSize := by
  have hnone : ∀ log, (s.effect log).Inside := fun log a ha => absurd ha List.not_mem_nil
  constructor
  · by_cases hta : p.totalCheck = true ∧ uploadCheck.Accepts (receive p s.rsp).bytes
    · rw [smpUploadRspProc, rspProc_eff_of_accepts _ _ _ _ m p s hta.1 hta.2]
      exact (uploadDecode_inside z m ⟨_, _⟩ (hnone _)).1
    · obtain ⟨log, hlog⟩ := rspProc_eff_of_not uploadCheck (fun _ => []) [] (uploadEffect z m) m p s
        hta
      rw [smpUploadRspProc, hlog]
      exact hnone log
  · intro o n hcopy
    rw [smpUploadRspProc, rspProc_copy, copyOf] at hcopy
    split_ifs at hcopy with hinside
    obtain ⟨rfl, rfl⟩ := Prod.mk.inj (Option.some.inj hcopy)
    exact hinside

end Smp
end NrfSamples
