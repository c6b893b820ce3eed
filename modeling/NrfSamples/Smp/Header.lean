/-
# SMP frames

`struct bt_dfu_smp_header` and `struct smp_buffer` in
`bootloader_samples/client_smp/smp_client_ble/src/main.c`.

A frame is a header of eight bytes, in the order `op`, `flags`, `len_h8`,
`len_l8`, `group_h8`, `group_l8`, `seq`, `id`, and a payload.  `frame` is what the
`send_…` functions hand to `bt_dfu_smp_command`; `SmpBuffer` is the buffer
`smp_rsp_buff` in which a response is put together.
-/

import Mathlib.Data.List.Basic
import Mathlib.Data.Int.Notation
import Mathlib.Data.UInt

namespace NrfSamples
namespace Smp

/-- `sizeof(struct bt_dfu_smp_header)`. -/
def headerSize : ℕ := 8

/-- `sizeof(payload)` in `struct smp_buffer`. -/
def payloadSize : ℕ := 300

/-- `sizeof(struct smp_buffer)`. -/
def bufferSize : ℕ := headerSize + payloadSize

/-- A frame of the client: its header with the length of the payload in two
bytes, most significant first, then the payload. -/
def frame (op groupL8 id : UInt8) (payload : List UInt8) : List UInt8 :=
  [op, 0, UInt8.ofNat (payload.length / 256 % 256), UInt8.ofNat (payload.length % 256), 0,
    groupL8, 0, id] ++ payload

/-- The payload of a frame: what follows the header. -/
def payloadOf (f : List UInt8) : List UInt8 := f.drop headerSize

@[simp] theorem payloadOf_frame (op groupL8 id : UInt8) (payload : List UInt8) :
    payloadOf (frame op groupL8 id payload) = payload := rfl

/-! ### The fields of a header -/

/-- Byte `i` of a byte string. -/
def byteAt (bs : List UInt8) (i : ℕ) : ℕ := (bs.getD i 0).toNat

/-- `header.op`. -/
def hdrOp (bs : List UInt8) : ℕ := byteAt bs 0

/-- The 16-bit length: `header.len_h8` and `header.len_l8`. -/
def hdrLen (bs : List UInt8) : ℕ := 256 * byteAt bs 2 + byteAt bs 3

/-- The 16-bit group: `header.group_h8` and `header.group_l8`. -/
def hdrGroup (bs : List UInt8) : ℕ := 256 * byteAt bs 4 + byteAt bs 5

/-- `header.id`. -/
def hdrId (bs : List UInt8) : ℕ := byteAt bs 7

/-- The header fields are read from the first eight bytes. -/
theorem byteAt_take (bs : List UInt8) {i : ℕ} (hi : i < headerSize) :
    byteAt (bs.take headerSize) i = byteAt bs i := by
  simp [byteAt, List.getD_eq_getElem?_getD, hi]

theorem hdrLen_congr {as bs : List UInt8} (h : as.take headerSize = bs.take headerSize) :
    hdrLen as = hdrLen bs := by
  have hbyte : ∀ i, i < headerSize → byteAt as i = byteAt bs i := by
    intro i hi
    rw [← byteAt_take as hi, h, byteAt_take bs hi]
  rw [hdrLen, hdrLen, hbyte 2 (by decide), hbyte 3 (by decide)]

/-- The length in a header is that of the payload. -/
theorem hdrLen_frame (op groupL8 id : UInt8) {payload : List UInt8}
    (h : payload.length < 65536) : hdrLen (frame op groupL8 id payload) = payload.length := by
  have hbytes : hdrLen (frame op groupL8 id payload) =
      256 * (UInt8.ofNat (payload.length / 256 % 256)).toNat +
        (UInt8.ofNat (payload.length % 256)).toNat := rfl
  rw [hbytes, UInt8.toNat_ofNat', UInt8.toNat_ofNat']
  omega

@[simp] theorem length_frame (op groupL8 id : UInt8) (payload : List UInt8) :
    (frame op groupL8 id payload).length = headerSize + payload.length := by
  simp [frame, headerSize]
  omega

/-! ### The response buffer -/

/-- `struct smp_buffer`, byte by byte. -/
structure SmpBuffer where
  bytes : List UInt8
  size : bytes.length = bufferSize

/-- The 300 payload bytes. -/
def SmpBuffer.payload (b : SmpBuffer) : List UInt8 := b.bytes.drop headerSize

/-- `memcpy` of `bs` into the buffer at `offset`, for a copy inside it. -/
def SmpBuffer.write (b : SmpBuffer) (offset : ℕ) (bs : List UInt8)
    (h : offset + bs.length ≤ bufferSize) : SmpBuffer where
  bytes := b.bytes.take offset ++ (bs ++ b.bytes.drop (offset + bs.length))
  size := by
    have := b.size
    simp only [List.length_append, List.length_take, List.length_drop]
    omega

end Smp
end NrfSamples
