/-
# Response handlers

What `smp_upload_rsp_proc`, `smp_list_rsp_proc` and `smp_echo_rsp_proc` in
`bootloader_samples/client_smp/smp_client_ble/src/main.c` have in common.

Every handler is called with the next part of a response.  It copies the part
into `smp_rsp_buff`, unless it does not fit, and when the response is complete it
checks the header and decodes the payload (`rspProc`).  The checks differ in
their values (`HeaderCheck`), the decoding is a handler's own.

The decoding is written as a `Proc`, a program with early returns over the state
of the zcbor decoder and the effects it has: the stored hashes, the calls of
`k_sem_give`, the lines printed and the array stores made.  A number printed by
`zcbor_pop_error` appears as `Arg.err`.  A handler decodes as many bytes as the
header in the buffer says, which may be more than the buffer holds; the bytes
behind the buffer are those of `Memory`.
-/

import NrfSamples.Smp.Header
import NrfSamples.Zcbor.Decoder

namespace NrfSamples
namespace Smp

open Cbor Zcbor

/-- An argument of `printk`. -/
inductive Arg
  | int (v : ℤ)
  | str (s : List UInt8)
  | hex (b : UInt8)
  | err
  deriving DecidableEq, Repr

/-- A call of `printk`: the format and its arguments. -/
structure Print where
  fmt : String
  args : List Arg
  deriving DecidableEq, Repr

/-- A store into an array: its name, its size, and how many bytes from its start
on the store reaches. -/
structure Store where
  array : String
  size : ℕ
  used : ℕ
  deriving DecidableEq, Repr

/-- What a handler does besides decoding. -/
structure Effect where
  hashPrimary : List UInt8
  hashSecondary : List UInt8
  gives : ℕ
  log : List Print
  stores : List Store
  deriving DecidableEq

/-- The state of a decoding program. -/
structure Exec (σ : Type) where
  zsd : σ
  eff : Effect

/-- A decoding program; `none` when the handler has returned. -/
def Proc (σ α : Type) : Type := Exec σ → Option α × Exec σ

instance {σ : Type} : Monad (Proc σ) where
  pure a := fun s => (some a, s)
  bind m f := fun s =>
    match m s with
    | (some a, t) => f a t
    | (none, t) => (none, t)

section Calls

variable {σ α β : Type}

theorem Proc.bind_some {m : Proc σ α} {f : α → Proc σ β} {s t : Exec σ} {a : α}
    (h : m s = (some a, t)) : (m >>= f) s = f a t := by
  change (match m s with
    | (some a, t) => f a t
    | (none, t) => (none, t)) = _
  rw [h]

theorem Proc.bind_none {m : Proc σ α} {f : α → Proc σ β} {s t : Exec σ}
    (h : m s = (none, t)) : (m >>= f) s = (none, t) := by
  change (match m s with
    | (some a, t) => f a t
    | (none, t) => (none, t)) = _
  rw [h]

theorem Proc.map_id (m : Proc σ α) : id <$> m = m := by
  funext s
  change (match m s with
    | (some a, t) => (some (id a), t)
    | (none, t) => (none, t)) = m s
  rcases m s with ⟨_ | a, t⟩ <;> rfl

theorem Proc.bind_bind {γ : Type} (m : Proc σ α) (f : α → Proc σ β) (g : β → Proc σ γ) :
    m >>= f >>= g = m >>= fun a => f a >>= g := by
  funext s
  rcases h : m s with ⟨_ | a, t⟩
  · rw [Proc.bind_none (Proc.bind_none h), Proc.bind_none h]
  · rw [Proc.bind_some h]
    change (match (m >>= f) s with
      | (some b, u) => g b u
      | (none, u) => (none, u)) = _
    rw [Proc.bind_some h]
    rfl

instance : LawfulMonad (Proc σ) := .mk' _ Proc.map_id (fun _ _ => rfl) Proc.bind_bind

/-- `return;`. -/
def ret : Proc σ α := fun s => (none, s)

/-- Changes the effects. -/
def effect (f : Effect → Effect) : Proc σ Unit := fun s => (some (), { s with eff := f s.eff })

def Effect.print (e : Effect) (p : Print) : Effect := { e with log := e.log ++ [p] }

def Effect.store (e : Effect) (a : Store) : Effect := { e with stores := e.stores ++ [a] }

/-- `printk`. -/
def printk (fmt : String) (args : List Arg) : Proc σ Unit := effect fun e => e.print ⟨fmt, args⟩

/-- A store into a local array. -/
def storeTo (array : String) (size used : ℕ) : Proc σ Unit :=
  effect fun e => e.store ⟨array, size, used⟩

/-- `k_sem_give(&upload_sem)`. -/
def kSemGive : Proc σ Unit := effect fun e => { e with gives := e.gives + 1 }

/-- A zcbor call. -/
def call (f : σ → α × σ) : Proc σ α := fun s => (some (f s.zsd).1, { s with zsd := (f s.zsd).2 })

theorem call_bind (f : σ → α × σ) (g : α → Proc σ β) (s : Exec σ) :
    (call f >>= g) s = g (f s.zsd).1 ⟨(f s.zsd).2, s.eff⟩ := rfl

theorem effect_bind (f : Effect → Effect) (g : Unit → Proc σ β) (s : Exec σ) :
    (effect f >>= g) s = g () ⟨s.zsd, f s.eff⟩ := rfl

theorem printk_bind (fmt : String) (args : List Arg) (g : Unit → Proc σ β) (s : Exec σ) :
    (printk fmt args >>= g) s = g () ⟨s.zsd, s.eff.print ⟨fmt, args⟩⟩ := rfl

theorem storeTo_bind (array : String) (size used : ℕ) (g : Unit → Proc σ β) (s : Exec σ) :
    (storeTo array size used >>= g) s = g () ⟨s.zsd, s.eff.store ⟨array, size, used⟩⟩ := rfl

/-- A zcbor call whose failure is printed and ends the handler: `if (!ok) {
printk(msg, zcbor_pop_error(zsd)); return; }`. -/
def orReturn (z : ZcborDecoder) (f : z.State → Option α × z.State) (msg : String) :
    Proc z.State α := do
  match ← call f with
  | some a => pure a
  | none =>
      call fun s => ((), z.popError s)
      printk msg [.err]
      ret

/-- `if (b) { printk(…); return; }`. -/
def rejectIf (b : Bool) (fmt : String) (args : List Arg) : Proc σ Unit :=
  if b then do
    printk fmt args
    ret
  else
    pure ()

/-- `if (zcbor_check_error(zsd))`: prints `line`, if there is one, else takes the
error back and prints it. -/
def printChecked (z : ZcborDecoder) (line : Option Print) (fmt : String) :
    Proc z.State Unit := do
  if ← call fun s => (z.checkError s, s) then
    match line with
    | some p => printk p.fmt p.args
    | none => pure ()
  else
    call fun s => ((), z.popError s)
    printk fmt [.err]

/-- The characters of a C string in an array that holds these bytes. -/
def cString (s : List UInt8) : List UInt8 := s.takeWhile (· ≠ 0)

/-- `memcpy` of a decoded string into a local array, and the NUL behind it. -/
def copyString (array : String) (size : ℕ) (value : List UInt8) : Proc σ Unit :=
  storeTo array size (value.length + 1)

end Calls

section Follow

variable {z : ZcborDecoder} {α : Type} {s : Exec z.State} {c c' : Cursor}

/-- **A call that reads something.** -/
theorem orReturn_some (msg : String) {f : z.State → Option α × z.State}
    {read : Cursor → Option (α × Cursor)} {a : α}
    (hf : ∀ s, Follows z.view (f s) ((z.view s).bind read)) (hs : z.view s.zsd = some c)
    (hread : read c = some (a, c')) :
    ∃ t, orReturn z f msg s = (some a, t) ∧ z.view t.zsd = some c' ∧ t.eff = s.eff := by
  obtain ⟨h₁, h₂⟩ := hf s.zsd
  rw [hs, Option.bind_some, hread] at h₁ h₂
  have hcall : call f s = (some (some a), { s with zsd := (f s.zsd).2 }) := by
    rw [call, h₁]; rfl
  exact ⟨{ s with zsd := (f s.zsd).2 }, by rw [orReturn, Proc.bind_some hcall]; rfl, h₂, rfl⟩

/-- **A call that reads nothing ends the handler**, with a line printed. -/
theorem orReturn_none (msg : String) {f : z.State → Option α × z.State}
    {read : Cursor → Option (α × Cursor)}
    (hf : ∀ s, Follows z.view (f s) ((z.view s).bind read)) (hs : z.view s.zsd = some c)
    (hread : read c = none) :
    ∃ t, orReturn z f msg s = (none, t) ∧ t.eff = s.eff.print ⟨msg, [.err]⟩ := by
  obtain ⟨h₁, _⟩ := hf s.zsd
  rw [hs, Option.bind_some, hread] at h₁
  have hcall : call f s = (some none, { s with zsd := (f s.zsd).2 }) := by
    rw [call, h₁]; rfl
  exact ⟨⟨z.popError (f s.zsd).2, s.eff.print ⟨msg, [.err]⟩⟩,
    by rw [orReturn, Proc.bind_some hcall]; rfl, rfl⟩

end Follow

/-! ### What a program leaves alone -/

section Leaves

variable {σ α β γ : Type} {f : Effect → γ}

/-- The program leaves `f` of the effects as it is. -/
def Leaves (f : Effect → γ) (p : Proc σ α) : Prop := ∀ s, f (p s).2.eff = f s.eff

/-- `f` is about neither the lines printed nor the array stores. -/
structure Quiet (f : Effect → γ) : Prop where
  print : ∀ e p, f (e.print p) = f e
  store : ∀ e a, f (e.store a) = f e

theorem quiet_gives : Quiet Effect.gives := ⟨fun _ _ => rfl, fun _ _ => rfl⟩

theorem quiet_hashSecondary : Quiet Effect.hashSecondary := ⟨fun _ _ => rfl, fun _ _ => rfl⟩

theorem Leaves.pure (a : α) : Leaves f (pure a : Proc σ α) := fun _ => rfl

theorem Leaves.ret : Leaves f (ret : Proc σ α) := fun _ => rfl

theorem Leaves.call (g : σ → α × σ) : Leaves f (call g) := fun _ => rfl

theorem Leaves.effect {g : Effect → Effect} (h : ∀ e, f (g e) = f e) :
    Leaves f (effect g : Proc σ Unit) := fun s => h s.eff

theorem Leaves.bind {m : Proc σ α} {g : α → Proc σ β} (hm : Leaves f m)
    (hg : ∀ a, Leaves f (g a)) : Leaves f (m >>= g) := by
  intro s
  rcases h : m s with ⟨_ | a, t⟩
  · rw [Proc.bind_none h, ← hm s, h]
  · rw [Proc.bind_some h, hg a t, ← hm s, h]

theorem Leaves.ite {c : Prop} [Decidable c] {p q : Proc σ α} (hp : Leaves f p)
    (hq : Leaves f q) : Leaves f (if c then p else q) := by
  split_ifs
  · exact hp
  · exact hq

variable (hf : Quiet f)

include hf

theorem Quiet.printk (fmt : String) (args : List Arg) : Leaves f (printk fmt args : Proc σ Unit) :=
  .effect fun e => hf.print e _

theorem Quiet.storeTo (array : String) (size used : ℕ) :
    Leaves f (storeTo array size used : Proc σ Unit) :=
  .effect fun e => hf.store e _

theorem Quiet.copyString (array : String) (size : ℕ) (value : List UInt8) :
    Leaves f (copyString array size value : Proc σ Unit) :=
  hf.storeTo array size _

theorem Quiet.rejectIf (b : Bool) (fmt : String) (args : List Arg) :
    Leaves f (rejectIf b fmt args : Proc σ Unit) :=
  .ite (.bind (hf.printk fmt args) fun _ => .ret) (.pure ())

theorem Quiet.orReturn (z : ZcborDecoder) (g : z.State → Option α × z.State) (msg : String) :
    Leaves f (orReturn z g msg) :=
  .bind (.call g) fun a => by
    cases a with
    | some a => exact .pure a
    | none => exact .bind (.call _) fun _ => .bind (hf.printk _ _) fun _ => .ret

theorem Quiet.printChecked (z : ZcborDecoder) (line : Option Print) (fmt : String) :
    Leaves f (printChecked z line fmt) :=
  .bind (.call _) fun _ => .ite
    (by cases line with
      | some p => exact hf.printk _ _
      | none => exact .pure ())
    (.bind (.call _) fun _ => hf.printk _ _)

end Leaves

/-! ### From parts to a decision -/

/-- `bt_dfu_smp_rsp_state`: the offset of a part, its bytes, and the total size of
the response. -/
structure RspPart where
  offset : ℕ
  data : List UInt8
  totalSize : ℕ
  deriving DecidableEq, Repr

/-- `bt_dfu_smp_rsp_total_check`. -/
def RspPart.totalCheck (p : RspPart) : Bool := decide (p.totalSize ≤ p.offset + p.data.length)

/-- The part fits into `smp_rsp_buff`. -/
def RspPart.Inside (p : RspPart) : Prop := p.offset + p.data.length ≤ bufferSize

instance (p : RspPart) : Decidable p.Inside := inferInstanceAs (Decidable (_ ≤ _))

/-- `smp_rsp_buff` after a part: the copy, unless the part does not fit. -/
def receive (p : RspPart) (b : SmpBuffer) : SmpBuffer :=
  if h : p.Inside then b.write p.offset p.data h else b

/-- The copy made: where it goes and how many bytes it has. -/
def copyOf (p : RspPart) : Option (ℕ × ℕ) :=
  if p.Inside then some (p.offset, p.data.length) else none

/-- The values of the header checks of a handler. -/
structure HeaderCheck where
  ops : List ℕ
  group : ℕ
  id : ℕ

/-- The header checks: the line printed when one of them fails. -/
def HeaderCheck.reject (c : HeaderCheck) (bs : List UInt8) : Option Print :=
  if hdrOp bs ∉ c.ops then some ⟨"Unexpected operation code (%u)!\n", [.int (hdrOp bs)]⟩
  else if hdrGroup bs ≠ c.group then
    some ⟨"Unexpected command group (%u)!\n", [.int (hdrGroup bs)]⟩
  else if hdrId bs ≠ c.id then some ⟨"Unexpected command (%u)", [.int (hdrId bs)]⟩
  else none

/-- The checks pass. -/
def HeaderCheck.Accepts (c : HeaderCheck) (bs : List UInt8) : Prop :=
  hdrOp bs ∈ c.ops ∧ hdrGroup bs = c.group ∧ hdrId bs = c.id

instance (c : HeaderCheck) (bs : List UInt8) : Decidable (c.Accepts bs) :=
  inferInstanceAs (Decidable (_ ∧ _))

theorem HeaderCheck.reject_eq_none (c : HeaderCheck) (bs : List UInt8) :
    c.reject bs = none ↔ c.Accepts bs := by
  unfold HeaderCheck.reject HeaderCheck.Accepts
  split_ifs <;> simp_all

/-- The checks read the first eight bytes. -/
theorem HeaderCheck.accepts_congr (c : HeaderCheck) {as bs : List UInt8}
    (h : as.take headerSize = bs.take headerSize) : c.Accepts as ↔ c.Accepts bs := by
  have hbyte : ∀ i, i < headerSize → byteAt as i = byteAt bs i := by
    intro i hi
    rw [← byteAt_take as hi, h, byteAt_take bs hi]
  simp only [HeaderCheck.Accepts, hdrOp, hdrGroup, hdrId, hbyte 0 (by decide),
    hbyte 4 (by decide), hbyte 5 (by decide), hbyte 7 (by decide)]

/-- Memory that the handlers read and the sources do not define: the bytes from
the address `'rc'` on, and the bytes behind `smp_rsp_buff`. -/
structure Memory where
  atRc : ℕ → UInt8
  behind : ℕ → UInt8

/-- The `len` bytes that zcbor is given: from the payload on, past its end if
`len` is larger. -/
def SmpBuffer.window (b : SmpBuffer) (m : Memory) (len : ℕ) : List UInt8 :=
  b.payload.take len ++ (List.range (len - payloadSize)).map m.behind

/-- The static variables the handlers use. -/
structure Statics where
  rsp : SmpBuffer
  hashPrimary : List UInt8
  hashSecondary : List UInt8

/-- No effect yet. -/
def Statics.effect (s : Statics) (log : List Print) : Effect :=
  ⟨s.hashPrimary, s.hashSecondary, 0, log, []⟩

/-- What one call of a handler does: the copy it makes, the buffer after it, how
many bytes it gives to zcbor if it starts to decode, and its effects. -/
structure RspResult where
  copy : Option (ℕ × ℕ)
  rsp : SmpBuffer
  decoded : Option ℕ
  eff : Effect

/-- The static variables after a call. -/
def RspResult.statics (r : RspResult) : Statics := ⟨r.rsp, r.eff.hashPrimary, r.eff.hashSecondary⟩

/-- The line printed when a part does not fit. -/
def overflowLine (p : RspPart) : List Print :=
  if p.Inside then [] else [⟨"Response size buffer overflow\n", []⟩]

/-- A handler: `onPart` and `onTotal` are lines it prints first, `decode` is what
it does with the payload. -/
def rspProc (c : HeaderCheck) (onPart : RspPart → List Print) (onTotal : List Print)
    (decode : List UInt8 → Effect → Effect) (m : Memory) (p : RspPart) (s : Statics) :
    RspResult :=
  let b := receive p s.rsp
  let log := onPart p ++ overflowLine p
  if p.totalCheck then
    match c.reject b.bytes with
    | some line => ⟨copyOf p, b, none, (s.effect (log ++ onTotal)).print line⟩
    | none =>
        ⟨copyOf p, b, some (hdrLen b.bytes),
          decode (b.window m (hdrLen b.bytes)) (s.effect (log ++ onTotal))⟩
  else
    ⟨copyOf p, b, none, s.effect log⟩

section RspProc

variable (c : HeaderCheck) (onPart : RspPart → List Print) (onTotal : List Print)
  (decode : List UInt8 → Effect → Effect) (m : Memory) (p : RspPart) (s : Statics)

@[simp] theorem rspProc_copy : (rspProc c onPart onTotal decode m p s).copy = copyOf p := by
  unfold rspProc
  dsimp only
  split_ifs
  · split <;> rfl
  · rfl

@[simp] theorem rspProc_rsp : (rspProc c onPart onTotal decode m p s).rsp = receive p s.rsp := by
  unfold rspProc
  dsimp only
  split_ifs
  · split <;> rfl
  · rfl

/-- A handler decodes when the response is complete and the header passes. -/
theorem rspProc_decoded_eq_some {len : ℕ} :
    (rspProc c onPart onTotal decode m p s).decoded = some len ↔
      p.totalCheck = true ∧ c.Accepts (receive p s.rsp).bytes ∧
        len = hdrLen (receive p s.rsp).bytes := by
  unfold rspProc
  dsimp only
  split_ifs with ht
  · split
    · rename_i line hline
      have hno : ¬ c.Accepts (receive p s.rsp).bytes := by
        rw [← c.reject_eq_none, hline]; simp
      simp [hno]
    · rename_i hline
      have hyes := (c.reject_eq_none _).1 hline
      simp [ht, hyes, eq_comm]
  · simp [ht]

/-- The effects when the response is complete and the header passes. -/
theorem rspProc_eff_of_accepts (ht : p.totalCheck = true)
    (ha : c.Accepts (receive p s.rsp).bytes) :
    (rspProc c onPart onTotal decode m p s).eff =
      decode ((receive p s.rsp).window m (hdrLen (receive p s.rsp).bytes))
        (s.effect (onPart p ++ overflowLine p ++ onTotal)) := by
  unfold rspProc
  simp only [ht, if_true, (c.reject_eq_none _).2 ha]

/-- Without them a handler only prints. -/
theorem rspProc_eff_of_not (h : ¬ (p.totalCheck = true ∧ c.Accepts (receive p s.rsp).bytes)) :
    ∃ log, (rspProc c onPart onTotal decode m p s).eff = s.effect log := by
  unfold rspProc
  dsimp only
  split_ifs with ht
  · split
    · exact ⟨_, rfl⟩
    · rename_i hline
      exact absurd ⟨ht, (c.reject_eq_none _).1 hline⟩ h
  · exact ⟨_, rfl⟩

/-- A call leaves alone what decoding does. -/
theorem rspProc_leaves {γ : Type} {f : Effect → γ} (hf : Quiet f)
    (hdecode : ∀ bs e, f (decode bs e) = f e) :
    f (rspProc c onPart onTotal decode m p s).eff = f (s.effect []) := by
  have hlog : ∀ log, f (s.effect log) = f (s.effect []) := by
    intro log
    induction log using List.reverseRecOn with
    | nil => rfl
    | append_singleton log line ih => exact (hf.print (s.effect log) line).trans ih
  by_cases h : p.totalCheck = true ∧ c.Accepts (receive p s.rsp).bytes
  · rw [rspProc_eff_of_accepts _ _ _ _ m p s h.1 h.2, hdecode, hlog]
  · obtain ⟨log, hprinted⟩ := rspProc_eff_of_not c onPart onTotal decode m p s h
    rw [hprinted, hlog]

end RspProc

end Smp
end NrfSamples
