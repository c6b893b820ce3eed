/-
# Decoding with zcbor

`smp_upload_rsp_proc`, `smp_list_rsp_proc` and `smp_echo_rsp_proc` in
`bootloader_samples/client_smp/smp_client_ble/src/main.c` decode their payload
with zcbor, which is not part of the sources.  A `ZcborDecoder` is any
implementation of the calls they make that behaves as the API documents:

* without a standing error, a call reads what `Cursor` says it reads;
* a call that fails sets an error, and while an error stands every call fails
  (`stop_on_error`);
* `zcbor_pop_error` takes the error back, and a start of a list or map that
  failed has consumed nothing.

What is observed of a state is its `view`: the position, or `none` while an
error stands.  The numbers of the errors are not documented and not observed.
`zcbor_bool_expect` is the one of `cbor_module_patch_dfu_mcumgr.patch`: a simple
value other than the expected one is consumed, and sets no error.
-/

import NrfSamples.Cbor.Item

namespace NrfSamples
namespace Zcbor

open Cbor

/-- A position in the payload: the bytes left, how many elements the list or map
around it still has (`none` if it is of indefinite length), the same for the
lists and maps around that, and how many more can be opened. -/
structure Cursor where
  rest : List UInt8
  elems : Option ℕ
  stack : List (Option ℕ)
  room : ℕ
  deriving DecidableEq, Repr

/-- The element count after one more element, if there may be one. -/
def Cursor.count (c : Cursor) : Option (Option ℕ) :=
  match c.elems with
  | none => some none
  | some 0 => none
  | some (k + 1) => some (some k)

/-- One element more, read from the front of the bytes left. -/
def Cursor.element {α : Type} (read : List UInt8 → Option (α × List UInt8)) (c : Cursor) :
    Option (α × Cursor) :=
  match c.count, read c.rest with
  | some k, some (a, r) => some (a, { c with rest := r, elems := k })
  | _, _ => none

/-- `zcbor_tstr_decode`. -/
def Cursor.tstr : Cursor → Option (List UInt8 × Cursor) := Cursor.element (readString 3)

/-- `zcbor_bstr_decode`. -/
def Cursor.bstr : Cursor → Option (List UInt8 × Cursor) := Cursor.element (readString 2)

/-- An integer that fits `int32_t`. -/
def readInt32 (bs : List UInt8) : Option (ℤ × List UInt8) :=
  (readInt bs).filter fun p => -2 ^ 31 ≤ p.1 ∧ p.1 < 2 ^ 31

/-- `zcbor_int32_decode`. -/
def Cursor.int32 : Cursor → Option (ℤ × Cursor) := Cursor.element readInt32

/-- A simple value, and whether it is the boolean `b`. -/
def readExpect (b : Bool) (bs : List UInt8) : Option (Bool × List UInt8) :=
  match readHead bs with
  | some (7, n, r) => some (decide (n = if b then 21 else 20), r)
  | _ => none

/-- `zcbor_bool_expect`, as patched. -/
def Cursor.boolExpect (b : Bool) : Cursor → Option (Bool × Cursor) :=
  Cursor.element (readExpect b)

/-- `zcbor_list_start_decode` for `m = 4` and `perEntry = 1`,
`zcbor_map_start_decode` for `m = 5` and `perEntry = 2`. -/
def Cursor.start (m perEntry : ℕ) (c : Cursor) : Option (Unit × Cursor) :=
  match c.room, c.count with
  | room + 1, some k =>
      if c.rest.head? = some (indefByte m) then
        some ((), ⟨c.rest.tail, none, k :: c.stack, room⟩)
      else
        match readHead c.rest with
        | some (m', n, r) =>
            if m' = m then some ((), ⟨r, some (perEntry * n), k :: c.stack, room⟩) else none
        | none => none
  | _, _ => none

def Cursor.listStart : Cursor → Option (Unit × Cursor) := Cursor.start 4 1

def Cursor.mapStart : Cursor → Option (Unit × Cursor) := Cursor.start 5 2

/-- `zcbor_list_end_decode` and `zcbor_map_end_decode`: no element is left, or
the break byte is next. -/
def Cursor.finish (c : Cursor) : Option (Unit × Cursor) :=
  match c.stack, c.elems with
  | k :: ks, some 0 => some ((), ⟨c.rest, k, ks, c.room + 1⟩)
  | k :: ks, none =>
      if c.rest.head? = some (indefByte 7) then some ((), ⟨c.rest.tail, k, ks, c.room + 1⟩)
      else none
  | _, _ => none

/-- A call returned what the cursor reads, and the new state shows the new
position; or it failed, and the new state shows an error. -/
def Follows {σ α : Type} (view : σ → Option Cursor) (result : Option α × σ)
    (reading : Option (α × Cursor)) : Prop :=
  result.1 = reading.map Prod.fst ∧ view result.2 = reading.map Prod.snd

/-- An implementation of the decoding calls. -/
structure ZcborDecoder where
  State : Type
  view : State → Option Cursor
  /-- `zcbor_new_decode_state`, with `stop_on_error` set after it. -/
  newDecodeState : ℕ → List UInt8 → ℕ → State
  mapStartDecode : State → Option Unit × State
  mapEndDecode : State → Option Unit × State
  listStartDecode : State → Option Unit × State
  listEndDecode : State → Option Unit × State
  tstrDecode : State → Option (List UInt8) × State
  bstrDecode : State → Option (List UInt8) × State
  int32Decode : State → Option ℤ × State
  boolExpect : Bool → State → Bool × State
  checkError : State → Bool
  popError : State → State
  newDecodeState_view : ∀ nStates payload elemCount,
    view (newDecodeState nStates payload elemCount) =
      some ⟨payload, some elemCount, [], nStates - 2⟩
  mapStartDecode_follows : ∀ s, Follows view (mapStartDecode s) ((view s).bind Cursor.mapStart)
  mapEndDecode_follows : ∀ s, Follows view (mapEndDecode s) ((view s).bind Cursor.finish)
  listStartDecode_follows : ∀ s, Follows view (listStartDecode s) ((view s).bind Cursor.listStart)
  listEndDecode_follows : ∀ s, Follows view (listEndDecode s) ((view s).bind Cursor.finish)
  tstrDecode_follows : ∀ s, Follows view (tstrDecode s) ((view s).bind Cursor.tstr)
  bstrDecode_follows : ∀ s, Follows view (bstrDecode s) ((view s).bind Cursor.bstr)
  int32Decode_follows : ∀ s, Follows view (int32Decode s) ((view s).bind Cursor.int32)
  boolExpect_view : ∀ b s,
    (boolExpect b s).1 = (((view s).bind (Cursor.boolExpect b)).map Prod.fst).getD false ∧
      view (boolExpect b s).2 = ((view s).bind (Cursor.boolExpect b)).map Prod.snd
  checkError_view : ∀ s, checkError s = (view s).isSome
  popError_view : ∀ s c, view s = some c → (mapStartDecode s).1 = none →
    view (popError (mapStartDecode s).2) = some c

/-- A position, and whether an error stands. -/
structure Documented where
  cursor : Cursor
  err : Bool

/-- The position, unless an error stands. -/
def Documented.view (s : Documented) : Option Cursor := if s.err then none else some s.cursor

/-- A call that reads `read`, fails with an error, and fails while one stands. -/
def Documented.call {α : Type} (read : Cursor → Option (α × Cursor)) (s : Documented) :
    Option α × Documented :=
  match s.view.bind read with
  | some (a, c) => (some a, ⟨c, false⟩)
  | none => (none, { s with err := true })

theorem Documented.call_follows {α : Type} (read : Cursor → Option (α × Cursor))
    (s : Documented) : Follows Documented.view (s.call read) (s.view.bind read) := by
  unfold Documented.call
  cases h : s.view.bind read with
  | none => exact ⟨rfl, rfl⟩
  | some p => exact ⟨rfl, rfl⟩

/-- The decoder that does what is documented and nothing else. -/
def documented : ZcborDecoder where
  State := Documented
  view := Documented.view
  newDecodeState nStates payload elemCount :=
    ⟨⟨payload, some elemCount, [], nStates - 2⟩, false⟩
  mapStartDecode := Documented.call Cursor.mapStart
  mapEndDecode := Documented.call Cursor.finish
  listStartDecode := Documented.call Cursor.listStart
  listEndDecode := Documented.call Cursor.finish
  tstrDecode := Documented.call Cursor.tstr
  bstrDecode := Documented.call Cursor.bstr
  int32Decode := Documented.call Cursor.int32
  boolExpect b s := ((s.call (Cursor.boolExpect b)).1.getD false, (s.call (Cursor.boolExpect b)).2)
  checkError s := !s.err
  popError s := { s with err := false }
  newDecodeState_view _ _ _ := rfl
  mapStartDecode_follows := Documented.call_follows _
  mapEndDecode_follows := Documented.call_follows _
  listStartDecode_follows := Documented.call_follows _
  listEndDecode_follows := Documented.call_follows _
  tstrDecode_follows := Documented.call_follows _
  bstrDecode_follows := Documented.call_follows _
  int32Decode_follows := Documented.call_follows _
  boolExpect_view b s := by
    obtain ⟨h₁, h₂⟩ := Documented.call_follows (Cursor.boolExpect b) s
    exact ⟨by rw [h₁], h₂⟩
  checkError_view s := by
    obtain ⟨c, err⟩ := s
    cases err <;> rfl
  popError_view s c hs hfail := by
    obtain ⟨c', err⟩ := s
    cases err with
    | true => cases hs
    | false =>
      obtain rfl : c' = c := Option.some.inj hs
      unfold Documented.call at hfail ⊢
      cases h : (Documented.view ⟨c', false⟩).bind Cursor.mapStart with
      | none => rfl
      | some p => rw [h] at hfail; cases hfail

/-! ### Reading one element -/

section Elements

variable {c : Cursor} {k : Option ℕ}

theorem Cursor.element_some {α : Type} {read : List UInt8 → Option (α × List UInt8)}
    {p : α × Cursor} (h : c.element read = some p) :
    ∃ k r, c.count = some k ∧ read c.rest = some (p.1, r) ∧
      p.2 = { c with rest := r, elems := k } := by
  unfold Cursor.element at h
  split at h
  · rename_i k a r hk hr
    obtain rfl := Option.some.inj h
    exact ⟨k, r, hk, hr, rfl⟩
  · cases h

theorem Cursor.element_eq {α : Type} {read : List UInt8 → Option (α × List UInt8)} {a : α}
    {r : List UInt8} (hk : c.count = some k) (hr : read c.rest = some (a, r)) :
    c.element read = some (a, { c with rest := r, elems := k }) := by
  simp only [Cursor.element, hk, hr]

theorem readInt32_eq_some {bs r : List UInt8} {v : ℤ} :
    readInt32 bs = some (v, r) ↔ readInt bs = some (v, r) ∧ -2 ^ 31 ≤ v ∧ v < 2 ^ 31 := by
  simp [readInt32, Option.filter_eq_some_iff]

/-- Opening a map or list with a definite or an indefinite head. -/
theorem Cursor.start_head {m perEntry n room : ℕ} {w : Width} {r : List UInt8}
    {stack : List (Option ℕ)} {elems : Option ℕ} (hm : m < 8) (hw : w.Fits n)
    (hk : (⟨head m w n ++ r, elems, stack, room + 1⟩ : Cursor).count = some k) :
    Cursor.start m perEntry ⟨head m w n ++ r, elems, stack, room + 1⟩ =
      some ((), ⟨r, some (perEntry * n), k :: stack, room⟩) := by
  have hread := readHead_head hm hw r
  have hne : (head m w n ++ r).head? ≠ some (indefByte m) := by
    intro h
    obtain ⟨t, ht⟩ := List.head?_eq_some_iff.1 h
    rw [ht, readHead_indefByte hm] at hread
    cases hread
  simp only [Cursor.start, hk, hne, if_false, hread, if_true]

theorem Cursor.start_indef {m perEntry room : ℕ} {r : List UInt8} {stack : List (Option ℕ)}
    {elems : Option ℕ} (hk : (⟨indefByte m :: r, elems, stack, room + 1⟩ : Cursor).count = some k) :
    Cursor.start m perEntry ⟨indefByte m :: r, elems, stack, room + 1⟩ =
      some ((), ⟨r, none, k :: stack, room⟩) := by
  simp only [Cursor.start, hk, List.head?_cons, if_true, List.tail_cons]

end Elements

end Zcbor
end NrfSamples
