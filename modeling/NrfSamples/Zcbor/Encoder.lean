/-
# Encoding with zcbor

`send_upload2`, `send_smp_test`, `send_smp_confirm`, `send_smp_reset` and
`send_smp_echo` in `bootloader_samples/client_smp/smp_client_ble/src/main.c`
encode one map with zcbor.  A `ZcborEncoder` is any implementation of the calls
they make that behaves as documented: a call appends one item to the payload if
it fits and sets an error otherwise, while an error stands nothing is written
(`stop_on_error`), maps are of indefinite length (the non-canonical encoding),
heads are as narrow as possible, and `zcbor_tstr_put_lit` and
`zcbor_bstr_put_lit` encode `sizeof - 1` bytes of an array, whatever the array
holds.

A chain of calls writes the concatenation of what they write, or fails as a
whole (`Writer.put_bind_put`).
-/

import NrfSamples.Cbor.Item

namespace NrfSamples
namespace Zcbor

open Cbor

/-- The bytes written so far, and the size of the payload buffer. -/
structure Writer where
  out : List UInt8
  cap : ℕ
  deriving DecidableEq, Repr

/-- Appends bytes, if they fit. -/
def Writer.put (bs : List UInt8) (w : Writer) : Option Writer :=
  if w.out.length + bs.length ≤ w.cap then some { w with out := w.out ++ bs } else none

theorem Writer.put_bind_put (as bs : List UInt8) (w : Writer) :
    (w.put as).bind (Writer.put bs) = w.put (as ++ bs) := by
  by_cases h : w.out.length + (as ++ bs).length ≤ w.cap
  · have ha : w.out.length + as.length ≤ w.cap := by
      rw [List.length_append] at h; omega
    simp only [Writer.put, ha, h, if_true, Option.bind_some, List.append_assoc]
    rw [if_pos]
    simp only [List.length_append] at h ⊢
    omega
  · simp only [Writer.put, h, if_false]
    split_ifs with ha
    · rw [Option.bind_some, Writer.put, if_neg]
      simp only [List.length_append] at h ⊢
      omega
    · rfl

theorem Writer.put_start {bs : List UInt8} {cap : ℕ} :
    (⟨[], cap⟩ : Writer).put bs = if bs.length ≤ cap then some ⟨bs, cap⟩ else none := by
  simp [Writer.put]

/-- What `zcbor_tstr_put_…` and `zcbor_bstr_put_…` write for the string `s`. -/
def putString (m : ℕ) (s : List UInt8) : List UInt8 :=
  head m (Width.shortest s.length) s.length ++ s

/-- What `zcbor_uint64_put` writes. -/
def putUint (n : ℕ) : List UInt8 := head 0 (Width.shortest n) n

/-- What `zcbor_int64_put` writes. -/
def putInt (v : ℤ) : List UInt8 :=
  if 0 ≤ v then putUint v.toNat
  else head 1 (Width.shortest (-1 - v).toNat) (-1 - v).toNat

/-- What `zcbor_bool_put` writes. -/
def putBool (b : Bool) : List UInt8 := head 7 .inHead (if b then 21 else 20)

/-- The bytes of an array that `zcbor_…_put_lit` encodes: `sizeof - 1` of them. -/
def litBytes (array : List UInt8) : List UInt8 := array.take (array.length - 1)

/-- A string literal as an array, with its terminator. -/
def literal (s : String) : List UInt8 := ascii s ++ [0]

@[simp] theorem litBytes_literal (s : String) : litBytes (literal s) = ascii s := by
  simp [litBytes, literal]

/-- An implementation of the encoding calls; `view` is what has been written, or
`none` while an error stands. -/
structure ZcborEncoder where
  State : Type
  view : State → Option Writer
  /-- `zcbor_new_encode_state`, with `stop_on_error` set after it. -/
  newEncodeState : ℕ → ℕ → State
  mapStartEncode : ℕ → State → State
  mapEndEncode : ℕ → State → State
  tstrPutLit : List UInt8 → State → State
  tstrPutTerm : List UInt8 → State → State
  bstrPutLit : List UInt8 → State → State
  int64Put : ℤ → State → State
  uint64Put : ℕ → State → State
  boolPut : Bool → State → State
  checkError : State → Bool
  /-- The bytes between the start of the payload and `zse->payload`. -/
  payload : State → List UInt8
  newEncodeState_view : ∀ nStates cap, view (newEncodeState nStates cap) = some ⟨[], cap⟩
  mapStartEncode_view : ∀ n s,
    view (mapStartEncode n s) = (view s).bind (Writer.put [indefByte 5])
  mapEndEncode_view : ∀ n s, view (mapEndEncode n s) = (view s).bind (Writer.put [indefByte 7])
  tstrPutLit_view : ∀ a s,
    view (tstrPutLit a s) = (view s).bind (Writer.put (putString 3 (litBytes a)))
  tstrPutTerm_view : ∀ t s,
    view (tstrPutTerm t s) = (view s).bind (Writer.put (putString 3 (t.takeWhile (· ≠ 0))))
  bstrPutLit_view : ∀ a s,
    view (bstrPutLit a s) = (view s).bind (Writer.put (putString 2 (litBytes a)))
  int64Put_view : ∀ v s, view (int64Put v s) = (view s).bind (Writer.put (putInt v))
  uint64Put_view : ∀ n s, view (uint64Put n s) = (view s).bind (Writer.put (putUint n))
  boolPut_view : ∀ b s, view (boolPut b s) = (view s).bind (Writer.put (putBool b))
  checkError_view : ∀ s, checkError s = (view s).isSome
  payload_view : ∀ s w, view s = some w → payload s = w.out

/-- The encoder that does what is documented and nothing else. -/
def documentedEncoder : ZcborEncoder where
  State := Option Writer
  view := id
  newEncodeState _ cap := some ⟨[], cap⟩
  mapStartEncode _ s := s.bind (Writer.put [indefByte 5])
  mapEndEncode _ s := s.bind (Writer.put [indefByte 7])
  tstrPutLit a s := s.bind (Writer.put (putString 3 (litBytes a)))
  tstrPutTerm t s := s.bind (Writer.put (putString 3 (t.takeWhile (· ≠ 0))))
  bstrPutLit a s := s.bind (Writer.put (putString 2 (litBytes a)))
  int64Put v s := s.bind (Writer.put (putInt v))
  uint64Put n s := s.bind (Writer.put (putUint n))
  boolPut b s := s.bind (Writer.put (putBool b))
  checkError s := s.isSome
  payload s := (s.map Writer.out).getD []
  newEncodeState_view _ _ := rfl
  mapStartEncode_view _ _ := rfl
  mapEndEncode_view _ _ := rfl
  tstrPutLit_view _ _ := rfl
  tstrPutTerm_view _ _ := rfl
  bstrPutLit_view _ _ := rfl
  int64Put_view _ _ := rfl
  uint64Put_view _ _ := rfl
  boolPut_view _ _ := rfl
  checkError_view _ := rfl
  payload_view s w h := by rw [show s = some w from h]; rfl

attribute [simp] ZcborEncoder.newEncodeState_view ZcborEncoder.mapStartEncode_view
  ZcborEncoder.mapEndEncode_view ZcborEncoder.tstrPutLit_view ZcborEncoder.tstrPutTerm_view
  ZcborEncoder.bstrPutLit_view ZcborEncoder.int64Put_view ZcborEncoder.uint64Put_view
  ZcborEncoder.boolPut_view

/-! ### What the calls write is an encoding -/

theorem length_putString_le (m : ℕ) (s : List UInt8) :
    (putString m s).length ≤ 9 + s.length := by
  have := Width.bytes_le (Width.shortest s.length)
  rw [putString, List.length_append, length_head]
  omega

theorem length_putUint_le (n : ℕ) : (putUint n).length ≤ 9 := by
  have := Width.bytes_le (Width.shortest n)
  rw [putUint, length_head]
  omega

theorem encodes_putString_text {s : List UInt8} {ys : List Item} {c : List UInt8}
    (hs : s.length < 2 ^ 64) (h : Encodes ys c) : Encodes (.text s :: ys) (putString 3 s ++ c) := by
  rw [putString, List.append_assoc]
  exact .text (Width.shortest_fits hs) h

theorem encodes_putString_bytes {s : List UInt8} {ys : List Item} {c : List UInt8}
    (hs : s.length < 2 ^ 64) (h : Encodes ys c) : Encodes (.bytes s :: ys) (putString 2 s ++ c) := by
  rw [putString, List.append_assoc]
  exact .bytes (Width.shortest_fits hs) h

theorem encodes_putUint {n : ℕ} {ys : List Item} {c : List UInt8} (hn : n < 2 ^ 64)
    (h : Encodes ys c) : Encodes (.uint n :: ys) (putUint n ++ c) :=
  .uint (Width.shortest_fits hn) h

theorem encodes_putBool {b : Bool} {ys : List Item} {c : List UInt8} (h : Encodes ys c) :
    Encodes (.bool b :: ys) (putBool b ++ c) := by
  cases b with
  | false => exact Encodes.prim (show Width.inHead.Fits 20 by decide) h
  | true => exact Encodes.prim (show Width.inHead.Fits 21 by decide) h

end Zcbor
end NrfSamples
