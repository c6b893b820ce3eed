/-
# Sending an image: the loop of `send_upload2`

`send_upload2` in `bootloader_samples/client_smp/smp_client_ble/src/main.c`.

The function walks the secondary slot in chunks of `UPLOAD_CHUNK` bytes.  Every
round takes the semaphore, shortens the chunk and sets `update_complete` when
less than a whole chunk is left, reads the chunk from flash into `data`, stores
a NUL behind it, encodes one map, advances `curr_addr` and hands the frame to
`bt_dfu_smp_command`.

A round is cut here where the client can be interrupted: `chooseChunk`,
`readChunk`, `uploadFrame`, `advance`.  `passes` is the run of the loop in which
every read, encoding and command succeeds and the semaphore is always given, with
the calls that its rounds make (`Calls`); `sendAll` is what it hands to
`bt_dfu_smp_command`.

`uploadFrame_spec`: the encoding of a round never fails, and the server reads
back the request that was put into it.
-/

import NrfSamples.Cbor.Parse
import NrfSamples.Smp.ProgressPrint
import NrfSamples.Zcbor.Encoder

namespace NrfSamples
namespace Smp

open Cbor Zcbor

/-- The secondary slot: `PM_MCUBOOT_SECONDARY_ADDRESS` and
`PM_MCUBOOT_SECONDARY_END_ADDRESS`, which the build generates.  They are
non-negative, and a chunk added to the end does not overflow an `int`. -/
structure Slot where
  startAddr : ℤ
  lastAddr : ℤ
  nonneg : 0 ≤ startAddr
  lt : startAddr < lastAddr
  fits : lastAddr + 150 < 2 ^ 31

/-- The number of bytes in the slot. -/
def Slot.size (S : Slot) : ℕ := (S.lastAddr - S.startAddr).toNat

theorem Slot.size_eq (S : Slot) : (S.size : ℤ) = S.lastAddr - S.startAddr :=
  Int.toNat_of_nonneg (by have := S.lt; omega)

theorem Slot.size_lt (S : Slot) : S.size < 2 ^ 31 - 150 := by
  have := S.size_eq; have := S.nonneg; have := S.fits; omega

/-- A slot of ten bytes, less than a chunk. -/
def tenByteSlot : Slot where
  startAddr := 0
  lastAddr := 10
  nonneg := by decide
  lt := by decide
  fits := by decide

/-- A slot of 200 bytes, a whole chunk and a part of one. -/
def twoChunkSlot : Slot where
  startAddr := 200
  lastAddr := 400
  nonneg := by decide
  lt := by decide
  fits := by decide

/-- `UPLOAD_CHUNK`. -/
def chunkSize : ℕ := 150

/-- The locals of `send_upload2` that live from one round to the next.  `data`
is the array of `UPLOAD_CHUNK + 1` bytes. -/
structure Locals where
  currAddr : ℤ
  uploadChunk : ℤ
  updateComplete : Bool
  data : List UInt8
  deriving DecidableEq

/-- The locals before the first round; nothing initializes `data`. -/
def Locals.start (S : Slot) (data : Vector UInt8 (chunkSize + 1)) : Locals where
  currAddr := S.startAddr
  uploadChunk := chunkSize
  updateComplete := false
  data := data.toList

/-- `flash_read` of `len` bytes. -/
def flashRead (flash : ℤ → UInt8) (addr len : ℤ) : List UInt8 :=
  (List.range len.toNat).map fun i : ℕ => flash (addr + i)

/-- A value converted to `uint64_t`. -/
def u64 (v : ℤ) : ℕ := (v % 2 ^ 64).toNat

/-- The top of a round: the last chunk is what is left of the slot. -/
def chooseChunk (S : Slot) (v : Locals) : Locals :=
  if v.currAddr + chunkSize > S.lastAddr then
    { v with uploadChunk := S.lastAddr - v.currAddr, updateComplete := true }
  else
    v

/-- `data` after a read of these bytes, with the NUL behind them. -/
def Locals.fill (v : Locals) (bs : List UInt8) : Locals :=
  { v with data := (bs ++ v.data.drop v.uploadChunk.toNat).set v.uploadChunk.toNat 0 }

/-- The read into `data`, and the NUL behind it. -/
def readChunk (flash : ℤ → UInt8) (v : Locals) : Locals :=
  v.fill (flashRead flash v.currAddr v.uploadChunk)

/-- `off`. -/
def Locals.off (S : Slot) (v : Locals) : ℕ := u64 (v.currAddr - S.startAddr)

/-- The calls between `zcbor_map_start_encode` and `zcbor_map_end_encode`. -/
def encodeUpload (z : ZcborEncoder) (S : Slot) (v : Locals) : z.State :=
  let encodeLen := if v.off S = 0 then 8 else 6
  let zse := z.newEncodeState 2 payloadSize
  let zse := z.mapStartEncode encodeLen zse
  let zse := z.tstrPutLit (literal "image") zse
  let zse := z.int64Put 0 zse
  let zse := z.tstrPutLit (literal "data") zse
  let zse := z.bstrPutLit v.data zse
  let zse :=
    if v.off S = 0 then
      z.uint64Put (u64 (S.lastAddr - S.startAddr)) (z.tstrPutLit (literal "len") zse)
    else zse
  let zse := z.tstrPutLit (literal "off") zse
  let zse := z.uint64Put (v.off S) zse
  let zse :=
    if v.off S = 0 then
      z.bstrPutLit (literal "12345") (z.tstrPutLit (literal "sha") zse)
    else zse
  let zse := z.tstrPutLit (literal "upgrade") zse
  let zse := z.boolPut false zse
  z.mapEndEncode encodeLen zse

/-- The frame of a round, unless the encoding fails. -/
def uploadFrame (z : ZcborEncoder) (S : Slot) (v : Locals) : Option (List UInt8) :=
  let zse := encodeUpload z S v
  if z.checkError zse then some (frame 2 1 1 (z.payload zse)) else none

/-- `curr_addr += upload_chunk`. -/
def advance (v : Locals) : Locals := { v with currAddr := v.currAddr + v.uploadChunk }

/-- The first argument of `progress_print`. -/
def Locals.downloaded (S : Slot) (v : Locals) : UInt32 := UInt32.ofInt (v.currAddr - S.startAddr)

/-- The second argument of `progress_print`. -/
def Slot.fileSize (S : Slot) : UInt32 := UInt32.ofInt (S.lastAddr - S.startAddr)

/-- The calls of a round: the locals when it makes them, the arguments of
`progress_print` and what is printed, the address and the length given to
`flash_read`, the store of the NUL, and the frame given to `bt_dfu_smp_command`. -/
structure Calls where
  locals : Locals
  progress : UInt32 × UInt32
  printed : List Print
  read : ℤ × ℤ
  nul : Store
  frame : List UInt8

/-- The calls are those that `send_upload2` makes with these locals. -/
structure Calls.OfLocals (S : Slot) (c : Calls) : Prop where
  progress : c.progress = (c.locals.downloaded S, S.fileSize)
  printed : c.printed = progressPrint c.progress.1 c.progress.2
  read : c.read = (c.locals.currAddr, c.locals.uploadChunk)
  nul : c.nul = ⟨"data", c.locals.data.length, c.locals.uploadChunk.toNat + 1⟩

/-- A round in which everything succeeds: its calls, and the locals after it. -/
def round (z : ZcborEncoder) (S : Slot) (flash : ℤ → UInt8) (v : Locals) :
    Option (Calls × Locals) :=
  let v := chooseChunk S v
  let progress := (v.downloaded S, S.fileSize)
  let printed := progressPrint progress.1 progress.2
  let read := (v.currAddr, v.uploadChunk)
  let nul : Store := ⟨"data", v.data.length, v.uploadChunk.toNat + 1⟩
  let w := v.fill (flashRead flash read.1 read.2)
  (uploadFrame z S w).map fun f => (⟨v, progress, printed, read, nul, f⟩, advance w)

/-- The calls of a run from round `i` on in which everything succeeds, with at most
`fuel` rounds; `flash i` is what the flash holds at the read of round `i`. -/
def passes (z : ZcborEncoder) (S : Slot) (flash : ℕ → ℤ → UInt8) :
    ℕ → ℕ → Locals → Option (List Calls)
  | 0, _, v => if v.updateComplete then some [] else none
  | fuel + 1, i, v =>
      if v.updateComplete then some []
      else
        match round z S (flash i) v with
        | some (c, v) => (passes z S flash fuel (i + 1) v).map fun cs => c :: cs
        | none => none

/-- The frames of such a run, while the flash stays as it is. -/
def sendAll (z : ZcborEncoder) (S : Slot) (flash : ℤ → UInt8) (fuel : ℕ) (v : Locals) :
    Option (List (List UInt8)) :=
  (passes z S (fun _ => flash) fuel 0 v).map fun cs => cs.map Calls.frame

/-- The frames of a run of `send_upload2` in which everything succeeds: the slot
has room for no more rounds than bytes and one. -/
def sendUpload2 (z : ZcborEncoder) (S : Slot) (flash : ℤ → UInt8)
    (data : Vector UInt8 (chunkSize + 1)) : Option (List (List UInt8)) :=
  sendAll z S flash (S.size + 1) (Locals.start S data)

/-! ### The loop -/

section Loop

variable (z : ZcborEncoder) (S : Slot)

/-- **The calls of a round** are those of its chunk, with the frame it encodes. -/
theorem round_of_frame {flash : ℤ → UInt8} {v : Locals} {f : List UInt8}
    (hf : uploadFrame z S (readChunk flash (chooseChunk S v)) = some f) :
    ∃ c, round z S flash v = some (c, advance (readChunk flash (chooseChunk S v))) ∧
      c.frame = f ∧ c.locals = chooseChunk S v ∧ c.OfLocals S := by
  rw [round, show uploadFrame z S ((chooseChunk S v).fill _) = some f from hf, Option.map_some]
  exact ⟨_, rfl, rfl, rfl, rfl, rfl, rfl, rfl⟩

/-- Where the flash stays as it is the number of the round does not matter. -/
theorem passes_const (flash : ℤ → UInt8) (fuel i j : ℕ) (v : Locals) :
    passes z S (fun _ => flash) fuel i v = passes z S (fun _ => flash) fuel j v := by
  induction fuel generalizing i j v with
  | zero => rfl
  | succ fuel ih =>
    rw [passes, passes]
    split_ifs
    · rfl
    · cases round z S flash v with
      | none => rfl
      | some p => exact congrArg (Option.map fun cs => p.1 :: cs) (ih (i + 1) (j + 1) p.2)

theorem sendAll_complete (flash : ℤ → UInt8) (fuel : ℕ) {v : Locals}
    (h : v.updateComplete = true) : sendAll z S flash fuel v = some [] := by
  cases fuel <;> rw [sendAll, passes, if_pos h] <;> rfl

variable {S}

/-- A run has no frames without a round. -/
theorem sendAll_zero {flash : ℤ → UInt8} {v : Locals} (h : v.updateComplete = false) :
    sendAll z S flash 0 v = none := by
  rw [sendAll, passes, h]
  rfl

/-- The frame of a round, before those of the others. -/
theorem sendAll_succ {flash : ℤ → UInt8} {fuel : ℕ} {v v' : Locals} {c : Calls}
    (h : v.updateComplete = false) (hround : round z S flash v = some (c, v')) :
    sendAll z S flash (fuel + 1) v = (sendAll z S flash fuel v').map fun fs => c.frame :: fs := by
  rw [sendAll, sendAll, passes, h, hround, passes_const z S flash fuel 0 (0 + 1)]
  simp only [Bool.false_eq_true, if_false, Option.map_map]
  rfl

end Loop

/-! ### What a frame carries -/

/-- The fields of an upload request, as the server reads them. -/
structure UploadReq where
  off : ℕ
  data : List UInt8
  len : Option ℕ
  sha : Option (List UInt8)
  deriving DecidableEq, Repr

/-- Reads the map in the payload of a frame. -/
def readUploadReq (f : List UInt8) : Option UploadReq :=
  match parseMap (payloadOf f) with
  | none => none
  | some kvs =>
      match lookupUint (ascii "off") kvs, lookupBytes (ascii "data") kvs with
      | some off, some data =>
          some ⟨off, data, lookupUint (ascii "len") kvs, lookupBytes (ascii "sha") kvs⟩
      | _, _ => none

/-- The request that a round with these locals encodes. -/
def Locals.req (S : Slot) (v : Locals) : UploadReq where
  off := v.off S
  data := litBytes v.data
  len := if v.off S = 0 then some (u64 (S.lastAddr - S.startAddr)) else none
  sha := if v.off S = 0 then some (ascii "12345") else none

/-- The keys and values of that request, in the order of the calls. -/
def Locals.items (S : Slot) (v : Locals) : List Item :=
  .text (ascii "image") :: .uint 0 :: .text (ascii "data") :: .bytes (litBytes v.data) ::
    if v.off S = 0 then
      [.text (ascii "len"), .uint (u64 (S.lastAddr - S.startAddr)), .text (ascii "off"),
        .uint (v.off S), .text (ascii "sha"), .bytes (ascii "12345"), .text (ascii "upgrade"),
        .bool false]
    else
      [.text (ascii "off"), .uint (v.off S), .text (ascii "upgrade"), .bool false]

/-- Their bytes. -/
def Locals.itemBytes (S : Slot) (v : Locals) : List UInt8 :=
  putString 3 (ascii "image") ++ (putInt 0 ++ (putString 3 (ascii "data") ++
    (putString 2 (litBytes v.data) ++
      if v.off S = 0 then
        putString 3 (ascii "len") ++ (putUint (u64 (S.lastAddr - S.startAddr)) ++
          (putString 3 (ascii "off") ++ (putUint (v.off S) ++ (putString 3 (ascii "sha") ++
            (putString 2 (ascii "12345") ++ (putString 3 (ascii "upgrade") ++
              (putBool false ++ [])))))))
      else
        putString 3 (ascii "off") ++ (putUint (v.off S) ++ (putString 3 (ascii "upgrade") ++
          (putBool false ++ []))))))

theorem u64_lt (v : ℤ) : u64 v < 2 ^ 64 := by
  unfold u64; omega

theorem u64_of_nonneg {v : ℤ} (h₀ : 0 ≤ v) (h : v < 2 ^ 64) : (u64 v : ℤ) = v := by
  unfold u64; omega

theorem Locals.encodes_items (S : Slot) (v : Locals) (hdata : (litBytes v.data).length < 2 ^ 64) :
    Encodes (v.items S) (v.itemBytes S) := by
  have htext : ∀ {s : String} {ys : List Item} {c : List UInt8}, (ascii s).length < 2 ^ 64 →
      Encodes ys c → Encodes (.text (ascii s) :: ys) (putString 3 (ascii s) ++ c) :=
    fun hs h => encodes_putString_text hs h
  unfold Locals.items Locals.itemBytes
  refine htext (by decide) (encodes_putUint (by norm_num) (htext (by decide)
    (encodes_putString_bytes hdata ?_)))
  split_ifs
  · exact htext (by decide) (encodes_putUint (u64_lt _) (htext (by decide)
      (encodes_putUint (u64_lt _) (htext (by decide) (encodes_putString_bytes (by decide)
        (htext (by decide) (encodes_putBool .nil)))))))
  · exact htext (by decide) (encodes_putUint (u64_lt _) (htext (by decide)
      (encodes_putBool .nil)))

theorem Locals.length_items (S : Slot) (v : Locals) :
    (v.items S).length = 2 * if v.off S = 0 then 6 else 4 := by
  unfold Locals.items
  split_ifs <;> rfl

/-- A request fits the payload, whatever the widths of its numbers. -/
theorem Locals.length_itemBytes (S : Slot) (v : Locals) (hdata : v.data.length = chunkSize + 1) :
    (v.itemBytes S).length + 2 ≤ payloadSize := by
  have hlit : (litBytes v.data).length = 150 := by
    simp [litBytes, hdata, chunkSize]
  have hs := fun (m : ℕ) (s : List UInt8) => length_putString_le m s
  have hu := length_putUint_le
  have h₁ := hs 2 (litBytes v.data)
  have h₂ := hu (u64 (S.lastAddr - S.startAddr))
  have h₃ := hu (v.off S)
  have himage : (putString 3 (ascii "image")).length = 6 := by decide
  have hdatakey : (putString 3 (ascii "data")).length = 5 := by decide
  have hlen : (putString 3 (ascii "len")).length = 4 := by decide
  have hoff : (putString 3 (ascii "off")).length = 4 := by decide
  have hsha : (putString 3 (ascii "sha")).length = 4 := by decide
  have hval : (putString 2 (ascii "12345")).length = 6 := by decide
  have hup : (putString 3 (ascii "upgrade")).length = 8 := by decide
  have hint : (putInt 0).length = 1 := by decide
  have hbool : (putBool false).length = 1 := by decide
  unfold Locals.itemBytes payloadSize
  split_ifs <;> simp only [List.length_append, List.length_nil] <;> omega

theorem encodeUpload_view (z : ZcborEncoder) (S : Slot) (v : Locals)
    (hdata : v.data.length = chunkSize + 1) :
    z.view (encodeUpload z S v) =
      some ⟨indefByte 5 :: (v.itemBytes S ++ [indefByte 7]), payloadSize⟩ := by
  have hfit := v.length_itemBytes S hdata
  have hput : z.view (encodeUpload z S v) =
      (⟨[], payloadSize⟩ : Writer).put (indefByte 5 :: (v.itemBytes S ++ [indefByte 7])) := by
    unfold encodeUpload Locals.itemBytes
    split_ifs <;>
      simp only [ZcborEncoder.mapEndEncode_view, ZcborEncoder.boolPut_view,
        ZcborEncoder.tstrPutLit_view, ZcborEncoder.uint64Put_view, ZcborEncoder.bstrPutLit_view,
        ZcborEncoder.int64Put_view, ZcborEncoder.mapStartEncode_view,
        ZcborEncoder.newEncodeState_view, litBytes_literal, Option.bind_some,
        Writer.put_bind_put, List.append_assoc, List.nil_append, List.cons_append]
  rw [hput, Writer.put_start, if_pos]
  simp only [List.length_cons, List.length_append, List.length_nil]
  omega

/-- The payload of a round: the map, of indefinite length. -/
def Locals.payloadBytes (S : Slot) (v : Locals) : List UInt8 :=
  indefByte 5 :: (v.itemBytes S ++ [indefByte 7])

/-- The encoding of a round never fails. -/
theorem uploadFrame_eq (z : ZcborEncoder) (S : Slot) (v : Locals)
    (hdata : v.data.length = chunkSize + 1) :
    uploadFrame z S v = some (frame 2 1 1 (v.payloadBytes S)) := by
  have hview := encodeUpload_view z S v hdata
  have hcheck : z.checkError (encodeUpload z S v) = true := by
    rw [z.checkError_view, hview]
    rfl
  rw [uploadFrame, hcheck, if_pos rfl, z.payload_view _ _ hview]
  rfl

theorem Locals.encodes_payload (S : Slot) (v : Locals) (hdata : v.data.length = chunkSize + 1) :
    Encodes [.map (v.items S)] (v.payloadBytes S) := by
  have hlit : (litBytes v.data).length < 2 ^ 64 := by
    simp [litBytes, hdata, chunkSize]
  exact .mapIndef (v.length_items S) (v.encodes_items S hlit) .nil

/-- **A round encodes its request.**  The encoding never fails, and the server
reads back what was put. -/
theorem uploadFrame_spec (z : ZcborEncoder) (S : Slot) (v : Locals)
    (hdata : v.data.length = chunkSize + 1) :
    ∃ f, uploadFrame z S v = some f ∧ readUploadReq f = some (v.req S) := by
  refine ⟨_, uploadFrame_eq z S v hdata, ?_⟩
  rw [readUploadReq, payloadOf_frame, parseMap_of_encodes (v.encodes_payload S hdata)]
  have hkeys : ascii "image" ≠ ascii "off" ∧ ascii "image" ≠ ascii "data" ∧
      ascii "image" ≠ ascii "len" ∧ ascii "image" ≠ ascii "sha" ∧ ascii "data" ≠ ascii "off" ∧
      ascii "data" ≠ ascii "len" ∧ ascii "data" ≠ ascii "sha" ∧ ascii "len" ≠ ascii "off" ∧
      ascii "len" ≠ ascii "sha" ∧ ascii "off" ≠ ascii "len" ∧ ascii "off" ≠ ascii "sha" ∧
      ascii "sha" ≠ ascii "len" ∧ ascii "upgrade" ≠ ascii "len" ∧
      ascii "upgrade" ≠ ascii "sha" := by decide
  unfold Locals.items Locals.req
  split_ifs <;> simp [lookupUint, lookupBytes, lookup, hkeys]

end Smp
end NrfSamples
