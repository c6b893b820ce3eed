/-
# When an upload response gives the semaphore

`smp_upload_rsp_proc` in `bootloader_samples/client_smp/smp_client_ble/src/main.c`.

`uploadEffect_gives`: the handler gives the semaphore exactly on a payload that
opens like an upload response (`UploadForm`): the head of a map, a text of two
bytes, the integer 0, a text of three bytes and an `int32_t`.  What the texts say
is not compared, except that the first must differ from the bytes at the address
`'rc'`, and what follows is not looked at.

A genuine response is the map `{"rc": 0, "off": v}` and nothing else.
`smpUploadRspProc_gives_iff` says on which responses the two agree.
-/

import NrfSamples.Cbor.Parse
import NrfSamples.Smp.Reassembly
import NrfSamples.Zcbor.Reading

namespace NrfSamples
namespace Smp

open Cbor Zcbor

/-- `strncmp(s, t, n) == 0`. -/
def strncmpEq : ℕ → (ℕ → UInt8) → (ℕ → UInt8) → Bool
  | 0, _, _ => true
  | n + 1, s, t => s 0 == t 0 && (s 0 == 0 || strncmpEq n (fun i => s (i + 1)) fun i => t (i + 1))

/-- The key equals what is stored at the address `'rc'`, a character constant that
the source passes for a string. -/
def Memory.eqRc (m : Memory) (key : List UInt8) : Bool :=
  strncmpEq 2 (fun i => key.getD i 0) m.atRc

/-- Decoding an upload response. -/
def uploadDecode (z : ZcborDecoder) (m : Memory) : Proc z.State Unit := do
  orReturn z z.mapStartDecode "Decoding error, start_decode (err: %d)\n"
  let value ← orReturn z z.tstrDecode "Decoding error, rc key (err: %d)\n"
  rejectIf (value.length != 2) "Invalid data received (rc key). Length %d is not equal 2\n"
    [.int value.length]
  rejectIf (m.eqRc value) "Invalid data received (rc key). String '%.2s' is not equal to 'rc'\n"
    [.str value]
  copyString "rc_key" 5 value
  let rcValue ← orReturn z z.int32Decode "Decoding error, rc value (err: %d)\n"
  rejectIf (rcValue != 0) "Error in image upload response: %d\n" [.int rcValue]
  let value ← orReturn z z.tstrDecode "Decoding error, offset key (err: %d)\n"
  rejectIf (value.length != 3) "Invalid data received (rc key). Length %d is not equal 3\n"
    [.int value.length]
  copyString "off_key" 5 value
  let _offVal ← orReturn z z.int32Decode "Decoding error, offset value (err: %d)\n"
  let _ ← call z.mapEndDecode
  printChecked z none "Cannot print received image upload CBOR stream (err: %d)\n"
  kSemGive

/-- The header checks: a write response of the image group, command upload. -/
def uploadCheck : HeaderCheck := ⟨[3], 1, 1⟩

/-- The effects of decoding a payload: `CBOR_DECODER_STATE_NUM` states, one element. -/
def uploadEffect (z : ZcborDecoder) (m : Memory) (payload : List UInt8) (e : Effect) : Effect :=
  (uploadDecode z m ⟨z.newDecodeState 3 payload 1, e⟩).2.eff

/-- `smp_upload_rsp_proc`. -/
def smpUploadRspProc (z : ZcborDecoder) (m : Memory) : RspPart → Statics → RspResult :=
  rspProc uploadCheck (fun _ => []) [] (uploadEffect z m) m

/-- The handler leaves the stored hashes alone. -/
theorem uploadEffect_leaves {γ : Type} {f : Effect → γ} (hf : Quiet f)
    (hgive : ∀ e : Effect, f { e with gives := e.gives + 1 } = f e) (z : ZcborDecoder)
    (m : Memory) (payload : List UInt8) (e : Effect) : f (uploadEffect z m payload e) = f e := by
  have h : Leaves f (uploadDecode z m) :=
    .bind (hf.orReturn z _ _) fun _ => .bind (hf.orReturn z _ _) fun _ =>
    .bind (hf.rejectIf _ _ _) fun _ => .bind (hf.rejectIf _ _ _) fun _ =>
    .bind (hf.copyString _ _ _) fun _ => .bind (hf.orReturn z _ _) fun _ =>
    .bind (hf.rejectIf _ _ _) fun _ => .bind (hf.orReturn z _ _) fun _ =>
    .bind (hf.rejectIf _ _ _) fun _ => .bind (hf.copyString _ _ _) fun _ =>
    .bind (hf.orReturn z _ _) fun _ => .bind (.call _) fun _ =>
    .bind (hf.printChecked z _ _) fun _ => .effect hgive
  exact h _

/-! ### How often a program gives the semaphore -/

/-- The program gives the semaphore once if `Q`, and not at all otherwise. -/
structure Gives {σ α : Type} (p : Proc σ α) (s : Exec σ) (Q : Prop) : Prop where
  yes : Q → (p s).2.eff.gives = s.eff.gives + 1
  no : ¬ Q → (p s).2.eff.gives = s.eff.gives

section Gives

variable {σ α β : Type} {s t : Exec σ} {Q : Prop}

/-- A step that goes on. -/
theorem Gives.step {m : Proc σ α} {f : α → Proc σ β} {a : α} (h : m s = (some a, t))
    (he : t.eff.gives = s.eff.gives) (hf : Gives (f a) t Q) : Gives (m >>= f) s Q := by
  constructor
  · intro hq
    rw [Proc.bind_some h, hf.yes hq, he]
  · intro hq
    rw [Proc.bind_some h, hf.no hq, he]

/-- A step that ends the program. -/
theorem Gives.stop {m : Proc σ α} {f : α → Proc σ β} (h : m s = (none, t))
    (he : t.eff.gives = s.eff.gives) (hq : ¬ Q) : Gives (m >>= f) s Q := by
  refine ⟨fun h => absurd h hq, fun _ => ?_⟩
  rw [Proc.bind_none h, he]

/-- A check goes on when it does not reject. -/
theorem Gives.rejectIf {b : Bool} {fmt : String} {args : List Arg} {f : Unit → Proc σ β}
    (hf : Gives (f ()) s Q) : Gives (rejectIf b fmt args >>= f) s (b = false ∧ Q) := by
  cases b with
  | false => exact .step rfl rfl ⟨fun h => hf.yes h.2, fun h => hf.no fun hq => h ⟨rfl, hq⟩⟩
  | true => exact .stop rfl rfl (by simp)

/-- A call goes on when it reads something. -/
theorem Gives.orReturn {z : ZcborDecoder} {s : Exec z.State} {c : Cursor}
    {f : z.State → Option α × z.State} {read : Cursor → Option (α × Cursor)} {msg : String}
    {g : α → Proc z.State β} {Q : α → Cursor → Prop}
    (hf : ∀ s, Follows z.view (f s) ((z.view s).bind read)) (hs : z.view s.zsd = some c)
    (h : ∀ a c' t, z.view t.zsd = some c' → Gives (g a) t (Q a c')) :
    Gives (orReturn z f msg >>= g) s (∃ a c', read c = some (a, c') ∧ Q a c') := by
  cases hread : read c with
  | none =>
    obtain ⟨t, hrun, heff⟩ := orReturn_none msg hf hs hread
    exact .stop hrun (by rw [heff]; rfl) (by simp)
  | some p =>
    obtain ⟨a, c'⟩ := p
    obtain ⟨t, hrun, hview, heff⟩ := orReturn_some msg hf hs hread
    have hg := Gives.step hrun (by rw [heff]) (h a c' t hview)
    refine ⟨?_, fun hq => hg.no fun h => hq ⟨a, c', rfl, h⟩⟩
    rintro ⟨a', c'', heq, hq⟩
    obtain ⟨rfl, rfl⟩ : a = a' ∧ c' = c'' := by simpa using heq
    exact hg.yes hq

theorem Gives.copyString {array : String} {size : ℕ} {value : List UInt8}
    {g : Unit → Proc σ β}
    (h : Gives (g ()) { s with eff := s.eff.store ⟨array, size, value.length + 1⟩ } Q) :
    Gives (copyString array size value >>= g) s Q :=
  .step rfl rfl h

/-- The end of the handler gives the semaphore whatever is left in the payload. -/
theorem gives_mapEnd (z : ZcborDecoder) (fmt : String) (s : Exec z.State) :
    Gives (do
      let _ ← call z.mapEndDecode
      printChecked z none fmt
      kSemGive) s True := by
  refine .step rfl rfl ?_
  have hprint : ∀ s : Exec z.State, ∃ t, printChecked z none fmt s = (some (), t) ∧
      t.eff.gives = s.eff.gives := by
    intro s
    have hcheck : call (fun s => (z.checkError s, s)) s = (some (z.checkError s.zsd), s) := rfl
    rw [printChecked, Proc.bind_some hcheck]
    cases z.checkError s.zsd with
    | true => exact ⟨s, rfl, rfl⟩
    | false => exact ⟨_, rfl, rfl⟩
  obtain ⟨t, hrun, heff⟩ := hprint { s with zsd := (z.mapEndDecode s.zsd).2 }
  exact .step hrun heff ⟨fun _ => rfl, fun h => absurd trivial h⟩

end Gives

/-! ### The payloads that give it -/

/-- The payload opens like an upload response: a map of at least two pairs, or of
indefinite length, that begins with a text of two bytes, the integer 0, a text of
three bytes and an `int32_t`; the first text is not what is stored at `'rc'`. -/
def UploadForm (m : Memory) (payload : List UInt8) : Prop :=
  ∃ n k k' v rest, Opens n [.text k, .int 0, .text k', .int v] rest payload ∧
    (∀ p, n = some p → 2 ≤ p) ∧ k.length = 2 ∧ m.eqRc k = false ∧ k'.length = 3 ∧ FitsInt32 v

/-- The calls of the handler, one after the other, in terms of what they read. -/
theorem uploadDecode_reads (z : ZcborDecoder) (m : Memory) {s : Exec z.State} {c : Cursor}
    (hs : z.view s.zsd = some c) :
    Gives (uploadDecode z m) s (∃ u c₁, c.mapStart = some (u, c₁) ∧
      ∃ k c₂, c₁.tstr = some (k, c₂) ∧ (k.length != 2) = false ∧ m.eqRc k = false ∧
      ∃ v₀ c₃, c₂.int32 = some (v₀, c₃) ∧ (v₀ != 0) = false ∧
      ∃ k' c₄, c₃.tstr = some (k', c₄) ∧ (k'.length != 3) = false ∧
      ∃ v c₅, c₄.int32 = some (v, c₅) ∧ True) := by
  unfold uploadDecode
  refine .orReturn z.mapStartDecode_follows hs fun _ c₁ s₁ h₁ => ?_
  refine .orReturn z.tstrDecode_follows h₁ fun k c₂ s₂ h₂ => .rejectIf (.rejectIf (.copyString ?_))
  refine .orReturn z.int32Decode_follows h₂ fun v₀ c₃ s₃ h₃ => .rejectIf ?_
  refine .orReturn z.tstrDecode_follows h₃ fun k' c₄ s₄ h₄ => .rejectIf (.copyString ?_)
  exact .orReturn z.int32Decode_follows h₄ fun v c₅ s₅ _ => gives_mapEnd z _ s₅

/-- What the calls read, from the first position of a payload on. -/
theorem uploadForm_iff (m : Memory) (payload : List UInt8) (room : ℕ) :
    UploadForm m payload ↔
      ∃ u c₁, Cursor.mapStart ⟨payload, some 1, [], room + 1⟩ = some (u, c₁) ∧
        ∃ k c₂, c₁.tstr = some (k, c₂) ∧ (k.length != 2) = false ∧ m.eqRc k = false ∧
        ∃ v₀ c₃, c₂.int32 = some (v₀, c₃) ∧ (v₀ != 0) = false ∧
        ∃ k' c₄, c₃.tstr = some (k', c₄) ∧ (k'.length != 3) = false ∧
        ∃ v c₅, c₄.int32 = some (v, c₅) ∧ True := by
  constructor
  · rintro ⟨n, k, k', v, rest, ⟨h, b, hh, hb, rfl⟩, hn, hk, hm, hk', hv⟩
    refine ⟨(), ⟨b ++ rest, n.map (2 * ·), [some 0], room⟩, mapStart_begin.2 ⟨n, h, hh, rfl, rfl⟩,
      ?_⟩
    have hreads : Reads [.text k, .int 0, .text k', .int v]
        ⟨b ++ rest, n.map (2 * ·), [some 0], room⟩
        ⟨rest, n.map (2 * · - 4), [some 0], room⟩ := by
      refine ⟨⟨b, hb, rfl⟩, ?_, rfl, rfl⟩
      cases n with
      | none => rfl
      | some p =>
        have := hn p rfl
        simp only [Option.map_some, List.length_cons, List.length_nil, Option.some.injEq]
        omega
    obtain ⟨c₂, h₂, hreads⟩ := reads_cons_iff.1 hreads
    obtain ⟨c₃, h₃, hreads⟩ := reads_cons_iff.1 hreads
    obtain ⟨c₄, h₄, h₅⟩ := reads_cons_iff.1 hreads
    exact ⟨k, c₂, tstr_eq_some.2 h₂, by simp [hk], hm, 0, c₃,
      int32_eq_some.2 ⟨h₃, by decide⟩, rfl, k', c₄, tstr_eq_some.2 h₄, by simp [hk'], v, _,
      int32_eq_some.2 ⟨h₅, hv⟩, trivial⟩
  · rintro ⟨u, c₁, h₁, k, c₂, h₂, hk, hm, v₀, c₃, h₃, hv₀, k', c₄, h₄, hk', v, c₅, h₅, -⟩
    obtain ⟨n, h, hh, rfl, hc₁⟩ := mapStart_begin.1 h₁
    obtain ⟨h₃, -⟩ := int32_eq_some.1 h₃
    obtain ⟨h₅, hv⟩ := int32_eq_some.1 h₅
    obtain rfl : v₀ = 0 := by simpa using hv₀
    have hreads : Reads [.text k, .int 0, .text k', .int v] c₁ c₅ :=
      reads_cons_iff.2 ⟨c₂, tstr_eq_some.1 h₂, reads_cons_iff.2 ⟨c₃, h₃,
        reads_cons_iff.2 ⟨c₄, tstr_eq_some.1 h₄, h₅⟩⟩⟩
    obtain ⟨b, hb, hrest⟩ := hreads.rest
    refine ⟨n, k, k', v, c₅.rest, ⟨h, b, hh, hb, by rw [hrest]⟩, ?_, by simpa using hk, hm,
      by simpa using hk', hv⟩
    rintro p rfl
    have helems := hreads.elems
    rw [hc₁] at helems
    cases h : c₅.elems with
    | none => rw [h] at helems; cases helems
    | some e =>
      rw [h] at helems
      simp only [Option.map_some, List.length_cons, List.length_nil, Option.some.injEq] at helems
      omega

/-- **When decoding gives the semaphore.**  For every payload, whatever its
length. -/
theorem uploadEffect_gives (z : ZcborDecoder) (m : Memory) (payload : List UInt8) (e : Effect) :
    (UploadForm m payload → (uploadEffect z m payload e).gives = e.gives + 1) ∧
      (¬ UploadForm m payload → (uploadEffect z m payload e).gives = e.gives) := by
  have h := uploadDecode_reads z m (s := ⟨z.newDecodeState 3 payload 1, e⟩)
    (z.newDecodeState_view 3 payload 1)
  rw [uploadForm_iff m payload 0]
  exact ⟨h.yes, h.no⟩

/-- The buffer holds a response that gives the semaphore: its header passes, and
what zcbor is given has the form of an upload response. -/
def SmpBuffer.GivesToken (m : Memory) (b : SmpBuffer) : Prop :=
  uploadCheck.Accepts b.bytes ∧ UploadForm m (b.window m (hdrLen b.bytes))

/-- **One call of the handler.** -/
theorem smpUploadRspProc_gives (z : ZcborDecoder) (m : Memory) (p : RspPart) (s : Statics) :
    (p.totalCheck = true ∧ (receive p s.rsp).GivesToken m →
      (smpUploadRspProc z m p s).eff.gives = 1) ∧
    (¬ (p.totalCheck = true ∧ (receive p s.rsp).GivesToken m) →
      (smpUploadRspProc z m p s).eff.gives = 0) := by
  constructor
  · rintro ⟨ht, ha, hform⟩
    rw [smpUploadRspProc, rspProc_eff_of_accepts _ _ _ _ m p s ht ha,
      (uploadEffect_gives z m _ _).1 hform]
    rfl
  · intro h
    by_cases hta : p.totalCheck = true ∧ uploadCheck.Accepts (receive p s.rsp).bytes
    · rw [smpUploadRspProc, rspProc_eff_of_accepts _ _ _ _ m p s hta.1 hta.2,
        (uploadEffect_gives z m _ _).2 fun hform => h ⟨hta.1, hta.2, hform⟩]
      rfl
    · obtain ⟨log, hlog⟩ := rspProc_eff_of_not uploadCheck (fun _ => []) [] (uploadEffect z m) m p s
        hta
      rw [smpUploadRspProc, hlog]
      rfl

/-! ### Against the genuine responses -/

/-- The payload of a genuine response: the map `{"rc": 0, "off": v}`. -/
def GenuineUpload (payload : List UInt8) : Prop :=
  ∃ v, FitsInt32 v ∧ Encodes [.map [.text (ascii "rc"), .int 0, .text (ascii "off"), .int v]] payload

/-- A genuine upload response. -/
def Response.Genuine (r : Response) : Prop :=
  hdrOp r.bytes = 3 ∧ hdrGroup r.bytes = 1 ∧ hdrId r.bytes = 1 ∧ GenuineUpload (payloadOf r.bytes)

/-- The semaphore is given once on a genuine response, and not at all on any
other. -/
def GivesExactly (r : Response) (results : List RspResult) : Prop :=
  (r.Genuine → totalGives results = 1) ∧ (¬ r.Genuine → totalGives results = 0)

/-- The form that the handler looks for says as much as it should: a payload that
opens like an upload response has the keys of one and ends after its two pairs;
and if the bytes at `'rc'` are themselves `rc`, the payload is not genuine. -/
structure FormSuffices (m : Memory) (payload : List UInt8) : Prop where
  opening : ∀ n k k' v rest, Opens n [.text k, .int 0, .text k', .int v] rest payload →
    (∀ p, n = some p → 2 ≤ p) → k.length = 2 → m.eqRc k = false → k'.length = 3 → FitsInt32 v →
      k = ascii "rc" ∧ k' = ascii "off" ∧ Closes [.text k, .int 0, .text k', .int v] n rest
  address : m.eqRc (ascii "rc") = true → ¬ GenuineUpload payload

/-- A genuine payload opens with its four items and ends there. -/
theorem genuineUpload_iff (payload : List UInt8) :
    GenuineUpload payload ↔ ∃ n v rest,
      Opens n [.text (ascii "rc"), .int 0, .text (ascii "off"), .int v] rest payload ∧
        Closes [.text (ascii "rc"), .int 0, .text (ascii "off"), .int v] n rest ∧ FitsInt32 v := by
  constructor
  · rintro ⟨v, hv, henc⟩
    obtain ⟨n, rest, hopens, hcloses⟩ := (encodes_map_iff (by simp)).1 henc
    exact ⟨n, v, rest, hopens, hcloses, hv⟩
  · rintro ⟨n, v, rest, hopens, hcloses, hv⟩
    exact ⟨v, hv, (encodes_map_iff (by simp)).2 ⟨n, rest, hopens, hcloses⟩⟩

/-- A map that ends after two pairs has two pairs. -/
theorem two_le_of_closes {x y x' y' : Item} {n : Option ℕ} {rest : List UInt8}
    (h : Closes [x, y, x', y'] n rest) (p : ℕ) (hp : n = some p) : 2 ≤ p := by
  subst hp
  have := h.1
  simp only [List.length_cons, List.length_nil] at this
  omega

/-- The handler accepts a genuine payload, unless `'rc'` is the address of `rc`. -/
theorem GenuineUpload.form {m : Memory} {payload : List UInt8} (h : GenuineUpload payload)
    (hm : m.eqRc (ascii "rc") = false) : UploadForm m payload := by
  obtain ⟨n, v, rest, hopens, hcloses, hv⟩ := (genuineUpload_iff payload).1 h
  exact ⟨n, _, _, v, rest, hopens, two_le_of_closes hcloses, rfl, hm, rfl, hv⟩

theorem formSuffices_iff (m : Memory) (payload : List UInt8) :
    (UploadForm m payload ↔ GenuineUpload payload) ↔ FormSuffices m payload := by
  constructor
  · intro h
    refine ⟨?_, ?_⟩
    · intro n k k' v rest hopens hn hk hm hk' hv
      obtain ⟨n', v', rest', hopens', hcloses, -⟩ := (genuineUpload_iff payload).1
        (h.1 ⟨n, k, k', v, rest, hopens, hn, hk, hm, hk', hv⟩)
      obtain ⟨rfl, hitems, rfl⟩ := hopens.unique hopens' rfl
      simp only [List.cons.injEq, Item.text.injEq] at hitems
      obtain ⟨rfl, -, rfl, hvv, -⟩ := hitems
      rw [hvv]
      exact ⟨rfl, rfl, hcloses⟩
    · intro hm hgen
      obtain ⟨n, k, k', v, rest, hopens, -, -, hm', -⟩ := h.2 hgen
      obtain ⟨n', v', rest', hopens', -⟩ := (genuineUpload_iff payload).1 hgen
      obtain ⟨-, hitems, -⟩ := hopens.unique hopens' rfl
      simp only [List.cons.injEq, Item.text.injEq] at hitems
      rw [hitems.1, hm] at hm'
      cases hm'
  · intro h
    constructor
    · rintro ⟨n, k, k', v, rest, hopens, hn, hk, hm, hk', hv⟩
      obtain ⟨rfl, rfl, hcloses⟩ := h.opening n k k' v rest hopens hn hk hm hk' hv
      exact (genuineUpload_iff payload).2 ⟨n, v, rest, hopens, hcloses, hv⟩
    · intro hgen
      exact hgen.form (Bool.eq_false_iff.2 fun hm => h.address hm hgen)

/-- The number of times a response that fits gives the semaphore. -/
theorem totalGives_upload (z : ZcborDecoder) (m : Memory) {r : Response} (hfits : r.Fits)
    (ps : Parts r) (s : Statics) :
    (uploadCheck.Accepts r.bytes ∧ UploadForm m (payloadOf r.bytes) →
      totalGives (ps.deliver (smpUploadRspProc z m) s) = 1) ∧
    (¬ (uploadCheck.Accepts r.bytes ∧ UploadForm m (payloadOf r.bytes)) →
      totalGives (ps.deliver (smpUploadRspProc z m) s) = 0) := by
  obtain ⟨pre, last, log, -, hgives, heff⟩ :=
    deliver_eff_of_fits uploadCheck (fun _ => []) [] (uploadEffect z m) m hfits ps s
  obtain ⟨hyes, hno⟩ := uploadEffect_gives z m (payloadOf r.bytes) (s.effect log)
  have htotal : totalGives (ps.deliver (smpUploadRspProc z m) s) = last.eff.gives := hgives
  rw [htotal, heff]
  constructor
  · rintro ⟨ha, hform⟩
    rw [if_pos ha, hyes hform]
    rfl
  · intro h
    split_ifs with ha
    · rw [hno fun hform => h ⟨ha, hform⟩]
      rfl
    · rfl

/-- **When the handler gives the semaphore on the genuine responses and no
others.**  For every response that fits the buffer, however it is split. -/
theorem smpUploadRspProc_gives_iff (z : ZcborDecoder) (m : Memory) {r : Response}
    (hfits : r.Fits) (ps : Parts r) (s : Statics) :
    GivesExactly r (ps.deliver (smpUploadRspProc z m) s) ↔
      (uploadCheck.Accepts r.bytes → FormSuffices m (payloadOf r.bytes)) := by
  obtain ⟨hyes, hno⟩ := totalGives_upload z m hfits ps s
  have haccepts : uploadCheck.Accepts r.bytes ↔
      hdrOp r.bytes = 3 ∧ hdrGroup r.bytes = 1 ∧ hdrId r.bytes = 1 := by
    simp [HeaderCheck.Accepts, uploadCheck]
  have hgenuine : r.Genuine ↔ uploadCheck.Accepts r.bytes ∧ GenuineUpload (payloadOf r.bytes) := by
    rw [haccepts, Response.Genuine]
    tauto
  have hexact : GivesExactly r (ps.deliver (smpUploadRspProc z m) s) ↔
      (uploadCheck.Accepts r.bytes ∧ UploadForm m (payloadOf r.bytes) ↔ r.Genuine) := by
    constructor
    · rintro ⟨h₁, h₀⟩
      constructor
      · intro h
        by_contra hg
        have := hyes h
        have := h₀ hg
        omega
      · intro hg
        by_contra h
        have := hno h
        have := h₁ hg
        omega
    · intro h
      exact ⟨fun hg => hyes (h.2 hg), fun hg => hno fun hf => hg (h.1 hf)⟩
  rw [hexact, hgenuine, and_congr_right_iff]
  exact imp_congr_right fun _ => formSuffices_iff m (payloadOf r.bytes)

/-- Memory and statics as after a start. -/
def Memory.zero : Memory := ⟨fun _ => 0, fun _ => 0⟩

def Statics.zero : Statics where
  rsp := ⟨List.replicate bufferSize 0, List.length_replicate⟩
  hashPrimary := List.replicate 33 0
  hashSecondary := List.replicate 33 0

/-- The response with the payload `{_ "rc": 0, "off": 0}`. -/
def Response.ok : Response where
  bytes := [3, 0, 0, 11, 0, 1, 0, 1] ++
    [0xBF, 0x62, 0x72, 0x63, 0, 0x63, 0x6F, 0x66, 0x66, 0, 0xFF]
  size := by decide

theorem genuineUpload_ok : GenuineUpload (payloadOf Response.ok.bytes) := by
  have hitems : Encodes [.text (ascii "rc"), .uint 0, .text (ascii "off"), .uint 0]
      (head 3 .inHead 2 ++ (ascii "rc" ++ (head 0 .inHead 0 ++
        (head 3 .inHead 3 ++ (ascii "off" ++ (head 0 .inHead 0 ++ [])))))) :=
    .text (by decide) (.uint (by decide) (.text (by decide) (.uint (by decide) .nil)))
  exact ⟨0, by decide, Encodes.mapIndef (n := 2) rfl hitems .nil⟩

/-- That response gives it, delivered whole. -/
theorem smpUploadRspProc_gives_ok :
    GivesExactly .ok ((Parts.single .ok).deliver (smpUploadRspProc documented .zero) .zero) :=
  (smpUploadRspProc_gives_iff documented .zero (by decide) (Parts.single .ok) .zero).2
    fun _ => (formSuffices_iff .zero _).1
      ⟨fun _ => genuineUpload_ok, fun _ => genuineUpload_ok.form (by decide)⟩

/-- The same response without the byte that ends the map. -/
def Response.unclosed : Response where
  bytes := [3, 0, 0, 10, 0, 1, 0, 1] ++ [0xBF, 0x62, 0x72, 0x63, 0, 0x63, 0x6F, 0x66, 0x66, 0]
  size := by decide

/-- A truncated map gives the semaphore too. -/
theorem not_givesExactly_unclosed :
    ¬ GivesExactly .unclosed
      ((Parts.single .unclosed).deliver (smpUploadRspProc documented .zero) .zero) := by
  intro h
  have hgives : totalGives ((Parts.single .unclosed).deliver
      (smpUploadRspProc documented .zero) .zero) = 1 := by decide +kernel
  have hnot : ¬ Response.unclosed.Genuine := by
    rintro ⟨-, -, -, v, -, henc⟩
    have hparse : parseMap (payloadOf Response.unclosed.bytes) = none := rfl
    rw [parseMap_of_encodes henc] at hparse
    cases hparse
  rw [h.2 hnot] at hgives
  cases hgives

end Smp
end NrfSamples
