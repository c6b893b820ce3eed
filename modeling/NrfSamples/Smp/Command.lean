/-
# The commands that carry a map

`send_smp_echo`, `send_smp_reset`, `send_smp_test` and `send_smp_confirm` in
`bootloader_samples/client_smp/smp_client_ble/src/main.c`.

Each function encodes one map into the payload of its own static buffer
`smp_cmd`, sets the header in front of it and hands the buffer to
`bt_dfu_smp_command` with the size of both.  The buffer is never cleared; what a
command sends is its first `size` bytes.

`sendCommands_spec`: echo and reset are refused exactly when the map
`{"d": string}` does not fit, with the byte that ends it; otherwise, and always
for test and confirm, one frame is sent.  It does not depend on what the buffer
held, its header says how many bytes follow, and they decode to the map.
-/

import NrfSamples.Smp.ImageCommand

namespace NrfSamples
namespace Smp

open Cbor Zcbor

/-- The errors that these functions return themselves. -/
inductive Errno
  | efault
  deriving DecidableEq, Repr

/-- What is handed to `bt_dfu_smp_command`: the size and the buffer. -/
structure Command where
  size : ℕ
  buffer : SmpBuffer

/-- The bytes that are sent. -/
def Command.bytes (c : Command) : List UInt8 := c.buffer.bytes.take c.size

/-- `smp_cmd` with an encoded payload in it, and the header of a write request set. -/
def SmpBuffer.request (smpCmd : SmpBuffer) (group id : UInt8) (payload : List UInt8) :
    SmpBuffer where
  bytes := overwrite smpCmd.bytes (frame 2 group id payload)
  size := by rw [length_overwrite, smpCmd.size]

/-- What follows the encoding: `-EFAULT` if it failed, else the command. -/
def request (z : ZcborEncoder) (group id : UInt8) (zse : z.State) (smpCmd : SmpBuffer) :
    Except Errno Command :=
  if z.checkError zse then
    .ok ⟨headerSize + (z.payload zse).length, smpCmd.request group id (z.payload zse)⟩
  else
    .error .efault

/-- The calls of `send_smp_echo` and `send_smp_reset`. -/
def encodeString (z : ZcborEncoder) (string : List UInt8) : z.State :=
  let zse := z.newEncodeState 2 payloadSize
  let zse := z.mapStartEncode 2 zse
  let zse := z.tstrPutLit (literal "d") zse
  let zse := z.tstrPutTerm string zse
  z.mapEndEncode 2 zse

/-- `send_smp_echo`; `string` are the bytes from the pointer on. -/
def sendSmpEcho (z : ZcborEncoder) (string : List UInt8) (smpCmd : SmpBuffer) :
    Except Errno Command :=
  request z 0 0 (encodeString z string) smpCmd

/-- `send_smp_reset`. -/
def sendSmpReset (z : ZcborEncoder) (string : List UInt8) (smpCmd : SmpBuffer) :
    Except Errno Command :=
  request z 0 5 (encodeString z string) smpCmd

/-- `send_smp_test`, with its buffer; `sendSmpTest` is the frame. -/
def sendSmpTestFrom (z : ZcborEncoder) (hash : List UInt8) (smpCmd : SmpBuffer) :
    Except Errno Command :=
  request z 1 0 (encodeImage z hash false) smpCmd

/-- `send_smp_confirm`, with its buffer; `sendSmpConfirm` is the frame. -/
def sendSmpConfirmFrom (z : ZcborEncoder) (hash : List UInt8) (smpCmd : SmpBuffer) :
    Except Errno Command :=
  request z 1 0 (encodeImage z hash true) smpCmd

/-! ### What a command sends -/

/-- The command sends a frame with this payload: a write request of the group and
id, whose header has the length of the payload, and which decodes to the map of
these keys and values. -/
structure Carries (c : Command) (group id : UInt8) (payload : List UInt8) (kvs : List Item) :
    Prop where
  bytes : c.bytes = frame 2 group id payload
  header : hdrLen c.bytes = (payloadOf c.bytes).length
  size : c.size = headerSize + (payloadOf c.bytes).length
  encodes : Encodes [.map kvs] (payloadOf c.bytes)
  decodes : parseMap (payloadOf c.bytes) = some kvs

/-- The bytes sent are those put into the buffer. -/
theorem SmpBuffer.take_request (smpCmd : SmpBuffer) (group id : UInt8) {payload : List UInt8}
    (h : payload.length ≤ payloadSize) :
    (smpCmd.request group id payload).bytes.take (headerSize + payload.length) =
      frame 2 group id payload := by
  have hlen := length_frame 2 group id payload
  have hfit : (frame 2 group id payload).length ≤ smpCmd.bytes.length := by
    rw [hlen, smpCmd.size, bufferSize]
    omega
  rw [← hlen]
  exact take_overwrite hfit

/-- **An encoding that succeeded is sent.** -/
theorem request_ok {z : ZcborEncoder} {zse : z.State} {payload : List UInt8} {kvs : List Item}
    (hview : z.view zse = some ⟨payload, payloadSize⟩) (hfit : payload.length ≤ payloadSize)
    (henc : Encodes [.map kvs] payload) (group id : UInt8) (smpCmd : SmpBuffer) :
    ∃ c, request z group id zse smpCmd = .ok c ∧ Carries c group id payload kvs := by
  have hcheck : z.checkError zse = true := by
    rw [z.checkError_view, hview]
    rfl
  have hbytes : (⟨headerSize + payload.length, smpCmd.request group id payload⟩ : Command).bytes =
      frame 2 group id payload := smpCmd.take_request group id hfit
  refine ⟨⟨headerSize + payload.length, smpCmd.request group id payload⟩, ?_, hbytes, ?_, ?_, ?_, ?_⟩
  · rw [request, hcheck, if_pos rfl, z.payload_view _ _ hview]
  · rw [hbytes, payloadOf_frame]
    exact hdrLen_frame 2 group id (by unfold payloadSize at hfit; omega)
  · rw [hbytes, payloadOf_frame]
  · rw [hbytes, payloadOf_frame]
    exact henc
  · rw [hbytes, payloadOf_frame]
    exact parseMap_of_encodes henc

/-- An encoding that failed is not. -/
theorem request_error {z : ZcborEncoder} {zse : z.State} (hview : z.view zse = none)
    (group id : UInt8) (smpCmd : SmpBuffer) : request z group id zse smpCmd = .error .efault := by
  have hcheck : z.checkError zse = false := by
    rw [z.checkError_view, hview]
    rfl
  rw [request, hcheck]
  rfl

/-! ### Echo and reset -/

/-- The payload of echo and reset: the map `{"d": s}`, of indefinite length. -/
def stringMap (s : List UInt8) : List UInt8 :=
  indefByte 5 :: (putString 3 (ascii "d") ++ (putString 3 s ++ [indefByte 7]))

/-- The capacity of the payload, in bytes of the string. -/
theorem length_stringMap_le_iff (s : List UInt8) :
    (stringMap s).length ≤ payloadSize ↔ s.length ≤ 293 := by
  have hd : (putString 3 (ascii "d")).length = 2 := by decide
  have hs : (putString 3 s).length = 1 + (Width.shortest s.length).bytes + s.length := by
    rw [putString, List.length_append, length_head]
  have hwide : 256 ≤ s.length → 2 ≤ (Width.shortest s.length).bytes := by
    intro h
    unfold Width.shortest
    split_ifs <;> first | omega | simp [Width.bytes]
  have htwo : s.length < 65536 → (Width.shortest s.length).bytes ≤ 2 := by
    intro h
    unfold Width.shortest
    split_ifs <;> simp [Width.bytes]
  simp only [stringMap, List.length_cons, List.length_append, List.length_nil, hd, hs, payloadSize]
  constructor
  · intro h
    by_cases hlong : 256 ≤ s.length
    · have := hwide hlong
      omega
    · omega
  · intro h
    have := htwo (by omega)
    omega

theorem encodes_stringMap {s : List UInt8} (hs : s.length < 2 ^ 64) :
    Encodes [.map [.text (ascii "d"), .text s]] (stringMap s) := by
  have hitems : Encodes [.text (ascii "d"), .text s]
      (putString 3 (ascii "d") ++ (putString 3 s ++ [])) :=
    encodes_putString_text (by decide) (encodes_putString_text hs .nil)
  have henc := Encodes.mapIndef (n := 1) rfl hitems .nil
  simpa only [stringMap, List.append_nil, List.append_assoc] using henc

/-- The calls write the map, if it fits. -/
theorem encodeString_view (z : ZcborEncoder) (string : List UInt8) :
    z.view (encodeString z string) =
      if (stringMap (cString string)).length ≤ payloadSize then
        some ⟨stringMap (cString string), payloadSize⟩
      else none := by
  rw [← Writer.put_start]
  simp only [encodeString, stringMap, cString, ZcborEncoder.mapEndEncode_view,
    ZcborEncoder.tstrPutLit_view, ZcborEncoder.tstrPutTerm_view, ZcborEncoder.mapStartEncode_view,
    ZcborEncoder.newEncodeState_view, litBytes_literal, Option.bind_some, Writer.put_bind_put,
    List.append_assoc, List.nil_append, List.cons_append]

/-- A command with a string: refused if and only if the map does not fit, and sent
otherwise. -/
structure SendsString (send : List UInt8 → SmpBuffer → Except Errno Command) (id : UInt8) :
    Prop where
  refused : ∀ string smpCmd,
    send string smpCmd = .error .efault ↔ payloadSize < (stringMap (cString string)).length
  sent : ∀ string smpCmd, (stringMap (cString string)).length ≤ payloadSize →
    ∃ c, send string smpCmd = .ok c ∧
      Carries c 0 id (stringMap (cString string)) [.text (ascii "d"), .text (cString string)]

/-- A command about an image: always sent. -/
def SendsImage (send : List UInt8 → SmpBuffer → Except Errno Command) (confirm : Bool) : Prop :=
  ∀ (hash : Vector UInt8 33) (smpCmd : SmpBuffer),
    ∃ c, send hash.toList smpCmd = .ok c ∧
      Carries c 1 0 (imageMap (hash.toList.take 32) confirm)
        [.text (ascii "hash"), .bytes (hash.toList.take 32), .text (ascii "confirm"), .bool confirm]

theorem sendsString_request (z : ZcborEncoder) (id : UInt8) :
    SendsString (fun string => request z 0 id (encodeString z string)) id := by
  have hsent : ∀ (string : List UInt8) (smpCmd : SmpBuffer),
      (stringMap (cString string)).length ≤ payloadSize →
        ∃ c, request z 0 id (encodeString z string) smpCmd = .ok c ∧ Carries c 0 id
          (stringMap (cString string)) [.text (ascii "d"), .text (cString string)] := by
    intro string smpCmd hfit
    have hview := encodeString_view z string
    rw [if_pos hfit] at hview
    have hlen := (length_stringMap_le_iff (cString string)).1 hfit
    exact request_ok hview hfit (encodes_stringMap (by omega)) 0 id smpCmd
  refine ⟨fun string smpCmd => ⟨fun h => ?_, fun h => ?_⟩, hsent⟩
  · by_contra hfit
    obtain ⟨c, hc, -⟩ := hsent string smpCmd (not_lt.1 hfit)
    rw [hc] at h
    cases h
  · have hview := encodeString_view z string
    rw [if_neg (not_le.2 h)] at hview
    exact request_error hview 0 id smpCmd

theorem sendsImage_request (z : ZcborEncoder) (confirm : Bool) :
    SendsImage (fun hash => request z 1 0 (encodeImage z hash confirm)) confirm := by
  intro hash smpCmd
  have hlen : hash.toList.length = 33 := Vector.length_toList
  have htake := (litBytes_hash hlen).2
  exact request_ok (encodeImage_view z hlen confirm) (length_imageMap_le htake confirm)
    (encodes_imageMap htake confirm) 1 0 smpCmd

/-- **What the commands send.**  For every string, every stored hash and every
content of the buffers. -/
theorem sendCommands_spec (z : ZcborEncoder) :
    SendsString (sendSmpEcho z) 0 ∧ SendsString (sendSmpReset z) 5 ∧
      SendsImage (sendSmpTestFrom z) false ∧ SendsImage (sendSmpConfirmFrom z) true :=
  ⟨sendsString_request z 0, sendsString_request z 5, sendsImage_request z false,
    sendsImage_request z true⟩

/-- The bytes of a test or confirm command are the frame that `imageFrame` gives. -/
theorem request_eq_imageFrame (z : ZcborEncoder) (hash : Vector UInt8 33) (confirm : Bool)
    (smpCmd : SmpBuffer) :
    (request z 1 0 (encodeImage z hash.toList confirm) smpCmd).toOption.map Command.bytes =
      imageFrame z hash.toList confirm := by
  have hlen : hash.toList.length = 33 := Vector.length_toList
  have hview := encodeImage_view z hlen confirm
  obtain ⟨c, hc, hcarries⟩ := sendsImage_request z confirm hash smpCmd
  have hcheck : z.checkError (encodeImage z hash.toList confirm) = true := by
    rw [z.checkError_view, hview]
    rfl
  dsimp only at hc
  rw [hc, imageFrame, hcheck, if_pos rfl, z.payload_view _ _ hview, ← hcarries.bytes]
  rfl

/-- The longest string that fits, and one byte more. -/
example : (stringMap (List.replicate 293 97)).length = 300 ∧
    (stringMap (List.replicate 294 97)).length = 301 := by decide +kernel

end Smp
end NrfSamples
