/-
# Decoding an image list

`smp_list_rsp_proc` in `bootloader_samples/client_smp/smp_client_ble/src/main.c`,
the handler of the responses to the list, test and confirm commands.

The handler reads two entries of the list `images`, whatever their keys are, and
stores the hash of the first one in `hash_value_primary_slot` and that of the
second in `hash_value_secondary_slot`.

`ImageList` is what a genuine list is: a map that begins with the list `images` of
these entries.  What the handler does with a payload is in
`NrfSamples.Smp.ListRun`.
-/

import NrfSamples.Smp.Reassembly
import NrfSamples.Zcbor.Encoder
import NrfSamples.Zcbor.Reading

namespace NrfSamples
namespace Smp

open Cbor Zcbor

/-- An array after a `memcpy` to its start.  A copy that goes past its end is outside
(`storeTo` records it); what it changes there is not part of the array. -/
def overwrite (array bs : List UInt8) : List UInt8 :=
  bs.take array.length ++ array.drop bs.length

/-- A text, copied into a local array; the result is what `%s` prints of it. -/
def decodeText (z : ZcborDecoder) (array : String) (size : ℕ) (msg : String) :
    Proc z.State (List UInt8) := do
  let value ← orReturn z z.tstrDecode msg
  copyString array size value
  pure (cString value)

/-- The hash of an image: it goes into `hash_value`, and into the static array for
the slot. -/
def decodeHash (z : ZcborDecoder) (slot : ℕ) (key : List UInt8) : Proc z.State Unit := do
  let value ← orReturn z z.bstrDecode "Decoding error, hash value (err: %d)\n"
  storeTo "hash_value" 40 value.length
  if slot = 0 then
    storeTo "hash_value_primary_slot" 33 value.length
    effect fun e => { e with hashPrimary := overwrite e.hashPrimary value }
  else
    storeTo "hash_value_secondary_slot" 33 value.length
    effect fun e => { e with hashSecondary := overwrite e.hashSecondary value }
  storeTo "hash_value" 40 (value.length + 1)
  printk "      %s: 0x" [.str key]
  effect fun e => { e with log := e.log ++ value.map fun b => ⟨"%x", [.hex b]⟩ }
  printk "\n" []

/-- The value of a flag, printed with its key. -/
def decodeFlag (z : ZcborDecoder) (key : List UInt8) (msg : String) : Proc z.State Unit := do
  let value ← call (z.boolExpect true)
  if ← call fun s => (z.checkError s, s) then
    printk "      %s: %s\n" [.str key, .str (ascii (if value then "true" else "false"))]
  else
    call fun s => ((), z.popError s)
    printk msg [.err]
    ret

/-- The body of the loop, from the heading of an entry to `zcbor_map_end_decode`. -/
def decodeEntry (z : ZcborDecoder) (slot : ℕ) : Proc z.State Unit := do
  printk (if slot = 0 then "\n-----------PRIMARY IMAGE-----------\n"
    else "\n-----------SECONDARY IMAGE-----------\n") []
  let slotKey ← decodeText z "slot_key" 5 "Decoding error, slot key (err: %d)\n"
  let slotValue ← orReturn z z.int32Decode "Decoding error, slot value (err: %d)\n"
  printk "      %s: %d\n" [.str slotKey, .int slotValue]
  let versionKey ← decodeText z "version_key" 5 "Decoding error, version key (err: %d)\n"
  let versionValue ← decodeText z "version_value" 5 "Decoding error, version value (err: %d)\n"
  printk "      %s: %s\n" [.str versionKey, .str versionValue]
  let hashKey ← decodeText z "hash_key" 5 "Decoding error, hash key (err: %d)\n"
  decodeHash z slot hashKey
  let bootableKey ← decodeText z "bootable_key" 10 "Decoding error, hash key (err: %d)\n"
  decodeFlag z bootableKey "Decoding error, bootable value (err: %d)\n"
  let pendingKey ← decodeText z "pending_key" 10 "Decoding error, pending key (err: %d)\n"
  decodeFlag z pendingKey "Decoding error, pending value (err: %d)\n"
  let confirmedKey ← decodeText z "confirmed_key" 10 "Decoding error, confirmed key (err: %d)\n"
  decodeFlag z confirmedKey "Decoding error, confirmed value (err: %d)\n"
  let activeKey ← decodeText z "active_key" 10 "Decoding error, active key (err: %d)\n"
  decodeFlag z activeKey "Decoding error, active value (err: %d)\n"
  let permanentKey ← decodeText z "permanent_key" 10 "Decoding error, permanent key (err: %d)\n"
  decodeFlag z permanentKey "Decoding error, permanent value (err: %d)\n"
  let _ ← call z.mapEndDecode

/-- The loop over the slots.  Without a map for slot 0 the error is taken back and
the entry is read all the same; without one for slot 1 the loop ends. -/
def decodeSlots (z : ZcborDecoder) : List ℕ → Proc z.State Unit
  | [] => pure ()
  | slot :: slots => do
      match ← call z.mapStartDecode with
      | some _ =>
          decodeEntry z slot
          decodeSlots z slots
      | none =>
          if slot = 0 then
            call fun s => ((), z.popError s)
            printk "Error decoding slot 0. Err: %d" [.err]
            decodeEntry z slot
            decodeSlots z slots

/-- Decoding an image list. -/
def listDecode (z : ZcborDecoder) : Proc z.State Unit := do
  orReturn z z.mapStartDecode "Decoding error 1, start_decode (err: %d)\n"
  let _ ← decodeText z "images_key" 10 "Decoding error 2, images key (err: %d)\n"
  orReturn z z.listStartDecode "Decoding error, start_decode images->list  (err: %d)\n"
  decodeSlots z [0, 1]
  let _ ← call z.listEndDecode
  let _ ← call z.mapEndDecode

/-- The header checks: a response of the image group, command state. -/
def listCheck : HeaderCheck := ⟨[1, 3], 1, 0⟩

/-- The effects of decoding a payload: ten states, five elements. -/
def listEffect (z : ZcborDecoder) (payload : List UInt8) (e : Effect) : Effect :=
  (listDecode z ⟨z.newDecodeState 10 payload 5, e⟩).2.eff

/-- `smp_list_rsp_proc`. -/
def smpListRspProc (z : ZcborDecoder) (m : Memory) : RspPart → Statics → RspResult :=
  rspProc listCheck (fun _ => []) [] (listEffect z) m

/-! ### What the handler leaves alone -/

section Leaves

variable {γ : Type} {f : Effect → γ} (hf : Quiet f) (z : ZcborDecoder)

include hf

theorem Quiet.decodeText (array : String) (size : ℕ) (msg : String) :
    Leaves f (decodeText z array size msg) :=
  .bind (hf.orReturn z _ _) fun _ => .bind (hf.copyString _ _ _) fun _ => .pure _

theorem Quiet.decodeFlag (key : List UInt8) (msg : String) : Leaves f (decodeFlag z key msg) :=
  .bind (.call _) fun _ => .bind (.call _) fun _ => .ite (hf.printk _ _)
    (.bind (.call _) fun _ => .bind (hf.printk _ _) fun _ => .ret)

/-- An entry, if storing its hash leaves `f` alone. -/
theorem Quiet.decodeEntry {slot : ℕ} (hhash : ∀ key, Leaves f (decodeHash z slot key)) :
    Leaves f (decodeEntry z slot) :=
  .bind (hf.printk _ _) fun _ => .bind (hf.decodeText z _ _ _) fun _ =>
  .bind (hf.orReturn z _ _) fun _ => .bind (hf.printk _ _) fun _ =>
  .bind (hf.decodeText z _ _ _) fun _ => .bind (hf.decodeText z _ _ _) fun _ =>
  .bind (hf.printk _ _) fun _ => .bind (hf.decodeText z _ _ _) fun _ =>
  .bind (hhash _) fun _ =>
  .bind (hf.decodeText z _ _ _) fun _ => .bind (hf.decodeFlag z _ _) fun _ =>
  .bind (hf.decodeText z _ _ _) fun _ => .bind (hf.decodeFlag z _ _) fun _ =>
  .bind (hf.decodeText z _ _ _) fun _ => .bind (hf.decodeFlag z _ _) fun _ =>
  .bind (hf.decodeText z _ _ _) fun _ => .bind (hf.decodeFlag z _ _) fun _ =>
  .bind (hf.decodeText z _ _ _) fun _ => .bind (hf.decodeFlag z _ _) fun _ => .bind (.call _)
    fun _ => .pure _

theorem Quiet.decodeSlots {slots : List ℕ}
    (hhash : ∀ slot ∈ slots, ∀ key, Leaves f (decodeHash z slot key)) :
    Leaves f (decodeSlots z slots) := by
  induction slots with
  | nil => exact .pure ()
  | cons slot slots ih =>
    have hentry := hf.decodeEntry z (hhash slot List.mem_cons_self)
    have hrest := ih fun k hk => hhash k (List.mem_cons_of_mem _ hk)
    refine .bind (.call _) fun a => ?_
    cases a with
    | some _ => exact .bind hentry fun _ => hrest
    | none => exact .ite (.bind (.call _) fun _ => .bind (hf.printk _ _) fun _ =>
        .bind hentry fun _ => hrest) (.pure _)

theorem Quiet.listEffect (hhash : ∀ slot ∈ [0, 1], ∀ key, Leaves f (decodeHash z slot key))
    (payload : List UInt8) (e : Effect) : f (listEffect z payload e) = f e := by
  have h : Leaves f (listDecode z) :=
    .bind (hf.orReturn z _ _) fun _ => .bind (hf.decodeText z _ _ _) fun _ =>
    .bind (hf.orReturn z _ _) fun _ => .bind (hf.decodeSlots z hhash) fun _ =>
    .bind (.call _) fun _ => .bind (.call _) fun _ => .pure _
  exact h _

/-- Storing a hash changes the stored hashes only. -/
theorem leaves_decodeHash (slot : ℕ) (key : List UInt8)
    (hprimary : slot = 0 →
      ∀ e v, f { e with hashPrimary := overwrite e.hashPrimary v } = f e)
    (hsecondary : slot ≠ 0 →
      ∀ e v, f { e with hashSecondary := overwrite e.hashSecondary v } = f e)
    (hlog : ∀ e v, f { e with log := v } = f e) : Leaves f (decodeHash z slot key) := by
  refine .bind (hf.orReturn z _ _) fun value => .bind (hf.storeTo _ _ _) fun _ => ?_
  have htail : Leaves f (do
      storeTo "hash_value" 40 (value.length + 1)
      printk "      %s: 0x" [.str key]
      effect fun e => { e with log := e.log ++ value.map fun b => ⟨"%x", [.hex b]⟩ }
      printk "\n" [] : Proc z.State Unit) :=
    .bind (hf.storeTo _ _ _) fun _ => .bind (hf.printk _ _) fun _ =>
    .bind (.effect fun e => hlog e _) fun _ => hf.printk _ _
  by_cases hslot : slot = 0
  · simp only [hslot, if_true]
    exact .bind (hf.storeTo _ _ _) fun _ => .bind (.effect fun e => hprimary hslot e _) fun _ => htail
  · simp only [hslot, if_false]
    exact .bind (hf.storeTo _ _ _) fun _ => .bind (.effect fun e => hsecondary hslot e _) fun _ =>
      htail

end Leaves

@[simp] theorem length_overwrite (array bs : List UInt8) :
    (overwrite array bs).length = array.length := by
  simp only [overwrite, List.length_append, List.length_take, List.length_drop]
  omega

/-- A shorter copy is at the start of the array. -/
theorem take_overwrite {array bs : List UInt8} (h : bs.length ≤ array.length) :
    (overwrite array bs).take bs.length = bs := by
  rw [overwrite, List.take_of_length_le h, List.take_left' rfl]

theorem quiet_lengths : Quiet fun e : Effect => (e.hashPrimary.length, e.hashSecondary.length) :=
  ⟨fun _ _ => rfl, fun _ _ => rfl⟩

/-- Decoding a list keeps the sizes of the arrays for the hashes. -/
theorem listEffect_lengths (z : ZcborDecoder) (payload : List UInt8) (e : Effect) :
    ((listEffect z payload e).hashPrimary.length, (listEffect z payload e).hashSecondary.length) =
      (e.hashPrimary.length, e.hashSecondary.length) :=
  quiet_lengths.listEffect z (fun slot _ key => leaves_decodeHash quiet_lengths z slot key
    (fun _ _ _ => congrArg (·, _) (length_overwrite _ _))
    (fun _ _ _ => congrArg (_, ·) (length_overwrite _ _)) fun _ _ => rfl) payload e

/-- Decoding a list never gives the semaphore. -/
theorem listEffect_gives (z : ZcborDecoder) (payload : List UInt8) (e : Effect) :
    (listEffect z payload e).gives = e.gives :=
  quiet_gives.listEffect z (fun slot _ key => leaves_decodeHash quiet_gives z slot key
    (fun _ _ _ => rfl) (fun _ _ _ => rfl) fun _ _ => rfl) payload e

theorem smpListRspProc_gives (z : ZcborDecoder) (m : Memory) (p : RspPart) (s : Statics) :
    (smpListRspProc z m p s).eff.gives = 0 :=
  rspProc_leaves _ _ _ _ m p s quiet_gives (listEffect_gives z)

/-- The static arrays have the size that they are declared with. -/
structure Statics.Sized (s : Statics) : Prop where
  primary : s.hashPrimary.length = 33
  secondary : s.hashSecondary.length = 33

/-- **The handler keeps these sizes.** -/
theorem Statics.Sized.list {s : Statics} (hs : s.Sized) (z : ZcborDecoder) (m : Memory)
    (p : RspPart) : (smpListRspProc z m p s).statics.Sized := by
  have hlengths := rspProc_leaves listCheck (fun _ => []) [] (listEffect z) m p s quiet_lengths
    (listEffect_lengths z)
  exact ⟨(congrArg Prod.fst hlengths).trans hs.primary,
    (congrArg Prod.snd hlengths).trans hs.secondary⟩

/-! ### Genuine lists -/

/-- An entry of an image list. -/
structure ImageEntry where
  slot : ℤ
  version : List UInt8
  hash : List UInt8
  bootable : Bool
  pending : Bool
  confirmed : Bool
  active : Bool
  permanent : Bool
  slot_fits : FitsInt32 slot
  hash_length : hash.length = 32

/-- The keys and values of an entry, in the order in which they are sent. -/
def ImageEntry.items (e : ImageEntry) : List Item :=
  [.text (ascii "slot"), .int e.slot, .text (ascii "version"), .text e.version,
    .text (ascii "hash"), .bytes e.hash, .text (ascii "bootable"), .bool e.bootable,
    .text (ascii "pending"), .bool e.pending, .text (ascii "confirmed"), .bool e.confirmed,
    .text (ascii "active"), .bool e.active, .text (ascii "permanent"), .bool e.permanent]

/-- The payload is a map that begins with the list `images` of these entries. -/
def ImageList (entries : List ImageEntry) (payload : List UInt8) : Prop :=
  ∃ more, Encodes
    [.map (.text (ascii "images") :: .array (entries.map fun e => .map e.items) :: more)] payload

/-- An entry of a sample list. -/
def sampleEntry (slot : Fin 2) (fill : UInt8) : ImageEntry where
  slot := slot.val
  version := ascii "1.0"
  hash := List.replicate 32 fill
  bootable := true
  pending := false
  confirmed := true
  active := true
  permanent := false
  slot_fits := by unfold FitsInt32; omega
  hash_length := List.length_replicate

/-- Its keys and values, encoded. -/
def sampleBytes (slot : ℕ) (fill : UInt8) : List UInt8 :=
  putString 3 (ascii "slot") ++ (putUint slot ++
    (putString 3 (ascii "version") ++ (putString 3 (ascii "1.0") ++
    (putString 3 (ascii "hash") ++ (putString 2 (List.replicate 32 fill) ++
    (putString 3 (ascii "bootable") ++ (putBool true ++
    (putString 3 (ascii "pending") ++ (putBool false ++
    (putString 3 (ascii "confirmed") ++ (putBool true ++
    (putString 3 (ascii "active") ++ (putBool true ++
    (putString 3 (ascii "permanent") ++ (putBool false ++ [])))))))))))))))

theorem encodes_sampleBytes (slot : Fin 2) (fill : UInt8) :
    Encodes (sampleEntry slot fill).items (sampleBytes slot.val fill) := by
  have htext : ∀ {s : String} {ys : List Item} {c : List UInt8}, (ascii s).length < 2 ^ 64 →
      Encodes ys c → Encodes (.text (ascii s) :: ys) (putString 3 (ascii s) ++ c) :=
    fun hs h => encodes_putString_text hs h
  have hint : Item.int slot.val = .uint slot.val := by simp [Item.int]
  have hhash : (List.replicate 32 fill).length < 2 ^ 64 := by
    rw [List.length_replicate]
    norm_num
  simp only [ImageEntry.items, sampleEntry, hint]
  exact htext (by decide) (encodes_putUint (by omega) (htext (by decide) (htext (by decide)
    (htext (by decide) (encodes_putString_bytes hhash (htext (by decide) (encodes_putBool
    (htext (by decide) (encodes_putBool (htext (by decide) (encodes_putBool (htext (by decide)
    (encodes_putBool (htext (by decide) (encodes_putBool .nil)))))))))))))))

end Smp
end NrfSamples
