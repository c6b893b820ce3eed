/-
# The commands of the image group

`send_smp_list`, `send_smp_test` and `send_smp_confirm` in
`bootloader_samples/client_smp/smp_client_ble/src/main.c`.  Test and confirm send
the map `{"hash": h, "confirm": b}`, where `h` is what is stored for the
secondary slot and `b` tells the two apart (`imageFrame`).

`slotOneHash` is the hash that an image list gives for slot 1.  The handler of
the list stores the hash of the second entry instead; `slotOneHash_of_two` is the
case in which these are the same.
-/

import NrfSamples.Cbor.Parse
import NrfSamples.Smp.ListRsp
import NrfSamples.Zcbor.Encoder

namespace NrfSamples
namespace Smp

open Cbor Zcbor

/-- The frame of `send_smp_list`. -/
def sendSmpList : List UInt8 := frame 0 1 0 []

/-- The calls of `send_smp_test` and `send_smp_confirm`;
`CBOR_MAP_MAX_ELEMENT_CNT` is 2. -/
def encodeImage (z : ZcborEncoder) (hash : List UInt8) (confirm : Bool) : z.State :=
  let zse := z.newEncodeState 2 payloadSize
  let zse := z.mapStartEncode 2 zse
  let zse := z.tstrPutLit (literal "hash") zse
  let zse := z.bstrPutLit hash zse
  let zse := z.tstrPutLit (literal "confirm") zse
  let zse := z.boolPut confirm zse
  z.mapEndEncode 2 zse

/-- The frame, or `none` if the encoding fails. -/
def imageFrame (z : ZcborEncoder) (hash : List UInt8) (confirm : Bool) : Option (List UInt8) :=
  let zse := encodeImage z hash confirm
  if z.checkError zse then some (frame 2 1 0 (z.payload zse)) else none

/-- The frame of `send_smp_test`. -/
def sendSmpTest (z : ZcborEncoder) (hash : List UInt8) : Option (List UInt8) :=
  imageFrame z hash false

/-- The frame of `send_smp_confirm`. -/
def sendSmpConfirm (z : ZcborEncoder) (hash : List UInt8) : Option (List UInt8) :=
  imageFrame z hash true

/-- The hash that a frame names. -/
def readHash (f : List UInt8) : Option (List UInt8) :=
  match parseMap (payloadOf f) with
  | some kvs => lookupBytes (ascii "hash") kvs
  | none => none

/-- The payload of these commands. -/
def imageMap (hash : List UInt8) (confirm : Bool) : List UInt8 :=
  indefByte 5 :: (putString 3 (ascii "hash") ++ (putString 2 hash ++
    (putString 3 (ascii "confirm") ++ (putBool confirm ++ [indefByte 7]))))

theorem length_imageMap_le {hash : List UInt8} (hlen : hash.length = 32) (confirm : Bool) :
    (imageMap hash confirm).length ≤ payloadSize := by
  have h₁ := length_putString_le 3 (ascii "hash")
  have h₂ := length_putString_le 2 hash
  have h₃ := length_putString_le 3 (ascii "confirm")
  have h₄ : (putBool confirm).length = 1 := by cases confirm <;> rfl
  have h₅ : (ascii "hash").length = 4 := by decide
  have h₆ : (ascii "confirm").length = 7 := by decide
  simp only [imageMap, List.length_cons, List.length_append, List.length_nil, payloadSize]
  omega

theorem encodes_imageMap {hash : List UInt8} (hlen : hash.length = 32) (confirm : Bool) :
    Encodes [.map [.text (ascii "hash"), .bytes hash, .text (ascii "confirm"), .bool confirm]]
      (imageMap hash confirm) := by
  have hitems : Encodes [.text (ascii "hash"), .bytes hash, .text (ascii "confirm"),
      .bool confirm] (putString 3 (ascii "hash") ++ (putString 2 hash ++
        (putString 3 (ascii "confirm") ++ (putBool confirm ++ [])))) :=
    encodes_putString_text (by decide) (encodes_putString_bytes (by omega)
      (encodes_putString_text (by decide) (encodes_putBool .nil)))
  have henc := Encodes.mapIndef (n := 2) rfl hitems .nil
  simpa only [imageMap, List.append_nil, List.append_assoc] using henc

/-- The 32 bytes that `zcbor_bstr_put_lit(zse, hash_value_secondary_slot)` encodes. -/
theorem litBytes_hash {hash : List UInt8} (hlen : hash.length = 33) :
    litBytes hash = hash.take 32 ∧ (hash.take 32).length = 32 := by
  rw [litBytes, List.length_take, hlen]
  exact ⟨rfl, rfl⟩

/-- The encoding of these commands never fails. -/
theorem encodeImage_view (z : ZcborEncoder) {hash : List UInt8} (hlen : hash.length = 33)
    (confirm : Bool) :
    z.view (encodeImage z hash confirm) = some ⟨imageMap (hash.take 32) confirm, payloadSize⟩ := by
  obtain ⟨hlit, hlen'⟩ := litBytes_hash hlen
  have hput : z.view (encodeImage z hash confirm) =
      (⟨[], payloadSize⟩ : Writer).put (imageMap (hash.take 32) confirm) := by
    simp only [encodeImage, imageMap, ← hlit, ZcborEncoder.mapEndEncode_view,
      ZcborEncoder.boolPut_view, ZcborEncoder.tstrPutLit_view, ZcborEncoder.bstrPutLit_view,
      ZcborEncoder.mapStartEncode_view, ZcborEncoder.newEncodeState_view, litBytes_literal,
      Option.bind_some, Writer.put_bind_put, List.append_assoc, List.nil_append, List.cons_append]
  rw [hput, Writer.put_start, if_pos (length_imageMap_le hlen' confirm)]

/-- **A frame names the first 32 bytes stored.** -/
theorem imageFrame_spec (z : ZcborEncoder) {hash : List UInt8} (hlen : hash.length = 33)
    (confirm : Bool) :
    ∃ f, imageFrame z hash confirm = some f ∧ readHash f = some (hash.take 32) := by
  have hview := encodeImage_view z hlen confirm
  refine ⟨_, by rw [imageFrame, z.checkError_view, hview]; rfl, ?_⟩
  rw [readHash, payloadOf_frame, z.payload_view _ _ hview,
    parseMap_of_encodes (encodes_imageMap (litBytes_hash hlen).2 confirm)]
  rfl

/-! ### The hash of slot 1 -/

/-- The hash in an entry, if it is the one of slot 1. -/
def entryHash : Item → Option (List UInt8)
  | .map kvs => if lookupUint (ascii "slot") kvs = some 1 then lookupBytes (ascii "hash") kvs else none
  | _ => none

/-- The hash that an image list gives for slot 1. -/
def slotOneHash (payload : List UInt8) : Option (List UInt8) :=
  match parseMap payload with
  | none => none
  | some kvs =>
      match lookup (ascii "images") kvs with
      | some (.array entries) => entries.findSome? entryHash
      | _ => none

theorem entryHash_items (e : ImageEntry) :
    entryHash (.map e.items) = if e.slot = 1 then some e.hash else none := by
  have hkeys : ascii "slot" ≠ ascii "hash" ∧ ascii "version" ≠ ascii "hash" := by decide
  have hslot : lookupUint (ascii "slot") e.items = some 1 ↔ e.slot = 1 := by
    simp only [lookupUint, lookup, ImageEntry.items, if_true, Item.int]
    split_ifs with hneg
    · simp only [Option.some.injEq]
      omega
    · simp only [false_iff]
      omega
  have hhash : lookupBytes (ascii "hash") e.items = some e.hash := by
    simp [lookupBytes, lookup, ImageEntry.items, hkeys]
  simp only [entryHash, hslot, hhash]

/-- **When the second entry is the one of slot 1.** -/
theorem slotOneHash_of_two {e₁ e₂ : ImageEntry} {payload : List UInt8}
    (h : ImageList [e₁, e₂] payload) (h₁ : e₁.slot ≠ 1) (h₂ : e₂.slot = 1) :
    slotOneHash payload = some e₂.hash := by
  obtain ⟨more, henc⟩ := h
  rw [slotOneHash, parseMap_of_encodes henc]
  simp [lookup, entryHash_items, h₁, h₂]

end Smp
end NrfSamples
