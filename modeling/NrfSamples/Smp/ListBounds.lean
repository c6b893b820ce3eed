/-
# The arrays of an image list

`smp_list_rsp_proc` in `bootloader_samples/client_smp/smp_client_ble/src/main.c`
copies every key and value it decodes into a local array, with a NUL behind it,
and the hashes into two static ones.  It never compares a length with the size
of an array.

`smpListRspProc_inside_iff`: all copies are inside their arrays exactly if the
payload has no longer strings where they are decoded (`ListFits`).  No genuine
list of images is such a payload (`not_listFits_of_imageList`): the key
`version` and its NUL take eight bytes, and `version_key` has five.
-/

import NrfSamples.Smp.ListRun

namespace NrfSamples
namespace Smp

open Cbor Zcbor

/-- Every store is inside its array. -/
def Effect.Inside (e : Effect) : Prop := ∀ a ∈ e.stores, a.used ≤ a.size

instance (e : Effect) : Decidable e.Inside := inferInstanceAs (Decidable (∀ a ∈ e.stores, _))

@[simp] theorem inside_print (e : Effect) (p : Print) : (e.print p).Inside ↔ e.Inside := Iff.rfl

@[simp] theorem inside_store (e : Effect) (a : Store) :
    (e.store a).Inside ↔ e.Inside ∧ a.used ≤ a.size := by
  simp [Effect.Inside, Effect.store, or_imp, forall_and]

/-- The value fits its array; the hash the static one. -/
def Kind.Fits : Kind → Value → Prop
  | .text _ size _, .text s => s.length + 1 ≤ size
  | .hash, .bytes h => h.length ≤ 33
  | _, _ => True

/-- Every key and value that is decoded in the rows fits its array. -/
def RowsFit : List Row → Cursor → Prop
  | [], _ => True
  | row :: rs, c => ∀ key c₁, c.tstr = some (key, c₁) → key.length + 1 ≤ row.keySize ∧
      ∀ v c₂, row.kind.read c₁ = some (v, c₂) → row.kind.Fits v ∧ RowsFit rs c₂

/-- Every key and value that is decoded in the payload fits its array. -/
structure ListFits (payload : List UInt8) : Prop where
  key : ∀ key c, keyAt payload = some (key, c) → key.length + 1 ≤ 10
  first : ∀ c, listAt payload = some c → RowsFit rows (entryAt c)
  second : ∀ c kvs c₁ c₂, listAt payload = some c → readRows rows (entryAt c) = some (kvs, c₁) →
    nextAt c₁ = some c₂ → RowsFit rows c₂

/-! ### Computing it -/

instance : (k : Kind) → (v : Value) → Decidable (k.Fits v)
  | .text _ size _, .text s => inferInstanceAs (Decidable (s.length + 1 ≤ size))
  | .hash, .bytes h => inferInstanceAs (Decidable (h.length ≤ 33))
  | .text _ _ _, .int _ | .text _ _ _, .bytes _ | .text _ _ _, .simple _ _ => .isTrue trivial
  | .hash, .int _ | .hash, .text _ | .hash, .simple _ _ => .isTrue trivial
  | .int32 _, _ | .flag _, _ => .isTrue trivial

theorem rowsFit_cons {row : Row} {rs : List Row} {c : Cursor} :
    RowsFit (row :: rs) c ↔ ∀ p ∈ c.tstr, p.1.length + 1 ≤ row.keySize ∧
      ∀ q ∈ row.kind.read p.2, row.kind.Fits q.1 ∧ RowsFit rs q.2 :=
  ⟨fun h p hp => ⟨(h p.1 p.2 hp).1, fun q hq => (h p.1 p.2 hp).2 q.1 q.2 hq⟩,
    fun h key c₁ hp => ⟨(h (key, c₁) hp).1, fun v c₂ hq => (h (key, c₁) hp).2 (v, c₂) hq⟩⟩

instance decidableRowsFit : (rs : List Row) → (c : Cursor) → Decidable (RowsFit rs c)
  | [], _ => .isTrue trivial
  | _ :: rs, _ =>
    letI := decidableRowsFit rs
    decidable_of_iff _ rowsFit_cons.symm

theorem listFits_iff {payload : List UInt8} :
    ListFits payload ↔ (∀ p ∈ keyAt payload, p.1.length + 1 ≤ 10) ∧
      ∀ c ∈ listAt payload, RowsFit rows (entryAt c) ∧
        ∀ p ∈ readRows rows (entryAt c), ∀ c' ∈ nextAt p.2, RowsFit rows c' :=
  ⟨fun h => ⟨fun p hp => h.key p.1 p.2 hp,
      fun c hc => ⟨h.first c hc, fun p hp c' hc' => h.second c p.1 p.2 c' hc hp hc'⟩⟩,
    fun h => ⟨fun key c hp => h.1 (key, c) hp, fun c hc => (h.2 c hc).1,
      fun c kvs c₁ c₂ hc hp hc₂ => (h.2 c hc).2 (kvs, c₁) hp c₂ hc₂⟩⟩

instance (payload : List UInt8) : Decidable (ListFits payload) :=
  decidable_of_iff _ listFits_iff.symm

/-! ### The copies -/

/-- The copies that a value makes, one case for each kind. -/
theorem Kind.effect_stores (slot : ℕ) (key : List UInt8) (k : Kind) (v : Value) (e : Effect) :
    ∃ copies, (k.effect slot key v e).stores = e.stores ++ copies ∧
      ((∀ a ∈ copies, a.used ≤ a.size) ↔ k.Fits v) := by
  cases k <;> cases v
  case text.text array size msg s => exact ⟨[⟨array, size, s.length + 1⟩], rfl, by simp [Kind.Fits]⟩
  case hash.bytes h =>
    refine ⟨_, rfl, ?_⟩
    simp only [List.forall_mem_cons, Kind.Fits]
    exact ⟨fun hlen => hlen.2.1,
      fun hlen => ⟨by omega, hlen, by omega, List.forall_mem_nil _⟩⟩
  all_goals exact ⟨[], (List.append_nil _).symm, by simp [Kind.Fits]⟩

theorem Kind.inside_effect (slot : ℕ) (key : List UInt8) (k : Kind) (v : Value) (e : Effect) :
    (k.effect slot key v e).Inside ↔ e.Inside ∧ k.Fits v := by
  obtain ⟨copies, hstores, hfits⟩ := k.effect_stores slot key v e
  rw [Effect.Inside, hstores, List.forall_mem_append, hfits, Effect.Inside]

/-- **The copies of the rows.**  Induction on the rows. -/
theorem runRows_inside (slot : ℕ) (rs : List Row) (c : Cursor) (e : Effect) :
    (runRows slot rs c e).effect.Inside ↔ e.Inside ∧ RowsFit rs c := by
  induction rs generalizing c e with
  | nil => simp [runRows, Outcome.effect, RowsFit]
  | cons row rs ih =>
    rw [runRows, Row.run, RowsFit]
    cases hkey : c.tstr with
    | none => simp [Outcome.ofRead, Outcome.andThen, Outcome.effect]
    | some k =>
      obtain ⟨key, c₁⟩ := k
      cases hvalue : row.kind.read c₁ with
      | none => simp [Outcome.ofRead, Outcome.andThen, Outcome.effect, Kind.run, hvalue]
      | some v =>
        obtain ⟨v, c₂⟩ := v
        simp [Outcome.ofRead, Outcome.andThen, Kind.run, hvalue, ih, Kind.inside_effect, and_assoc]

theorem secondRun_inside (c : Cursor) (e : Effect) :
    (secondRun c e).Inside ↔ e.Inside ∧ ∀ c', nextAt c = some c' → RowsFit rows c' := by
  rw [secondRun]
  cases nextAt c with
  | none => simp
  | some c' => simp [entryRun, runRows_inside]

theorem slotsRun_inside (c : Cursor) (e : Effect) :
    (slotsRun c e).Inside ↔ e.Inside ∧ RowsFit rows (entryAt c) ∧
      ∀ p ∈ readRows rows (entryAt c), ∀ c' ∈ nextAt p.2, RowsFit rows c' := by
  have hfirst : (firstRun c e).effect.Inside ↔ e.Inside ∧ RowsFit rows (entryAt c) :=
    runRows_inside 0 rows (entryAt c) _
  rw [← and_assoc, ← hfirst, slotsRun_iff secondRun_inside c e]
  exact and_congr_right fun _ => ⟨fun h p hp c' hc' => h p.1 p.2 c' hp hc',
    fun h kvs c₁ c₂ hp hc₂ => h (kvs, c₁) hp c₂ hc₂⟩

/-- **The copies of a payload.** -/
theorem listRun_inside (payload : List UInt8) (e : Effect) :
    (listRun payload e).Inside ↔ e.Inside ∧ ListFits payload := by
  rw [listFits_iff, listAt]
  rcases listRun_cases payload e with ⟨hkey, msg, hrun⟩ | ⟨key, c, hkey, h⟩
  · rw [hrun, hkey]
    simp
  · rw [hkey]
    rcases h with ⟨hlist, msg, hrun⟩ | ⟨c', hlist, hrun⟩
    · rw [hrun]
      simp [hlist]
    · rw [hrun, slotsRun_inside]
      simp [hlist, and_assoc]

/-- All copies of these calls are inside their arrays. -/
def AllInside (results : List RspResult) : Prop := ∀ q ∈ results, q.eff.Inside

instance (results : List RspResult) : Decidable (AllInside results) :=
  inferInstanceAs (Decidable (∀ q ∈ results, _))

/-- **When all copies of the handler are inside their arrays**, for a response that fits
the buffer, however it is split. -/
theorem smpListRspProc_inside_iff (z : ZcborDecoder) (m : Memory) {r : Response}
    (hfits : r.Fits) (ps : Parts r) (s : Statics) :
    AllInside (ps.deliver (smpListRspProc z m) s) ↔
      (listCheck.Accepts r.bytes → ListFits (payloadOf r.bytes)) := by
  have hstart : (s.effect []).Inside := by
    intro a ha
    cases ha
  have hall := deliver_list_iff z m hfits ps s hstart fun _ => hstart
  simp only [listRun_inside, hstart, true_and] at hall
  exact hall

/-- A payload with strings that are as long as their arrays allow: a key of nine
characters for the list, and an entry with keys of four and nine, a version of four, and
a hash of 33 bytes. -/
def limitPayload : List UInt8 :=
  let flag := putString 3 (ascii "ninechars") ++ putBool true
  let entry := putString 3 (ascii "slot") ++ putUint 0 ++ putString 3 (ascii "vers") ++
    putString 3 (ascii "1.23") ++ putString 3 (ascii "hash") ++ putString 2 (List.replicate 33 7) ++
    flag ++ flag ++ flag ++ flag ++ flag
  indefByte 5 :: (putString 3 (ascii "imagelist") ++ indefByte 4 :: indefByte 5 ::
    (entry ++ [indefByte 7, indefByte 7, indefByte 7]))

/-- The response with this payload. -/
def Response.limit : Response where
  bytes := frame 1 1 0 limitPayload
  size := by decide +kernel

/-- It is read as one image, and no copy is outside. -/
theorem smpListRspProc_inside_limit :
    (readList (payloadOf Response.limit.bytes)).isSome ∧
      AllInside ((Parts.single .limit).deliver (smpListRspProc documented .zero) .zero) :=
  ⟨by decide +kernel, (smpListRspProc_inside_iff documented .zero (by decide +kernel)
    (Parts.single .limit) .zero).2 fun _ => by decide +kernel⟩

/-- **No genuine list of images fits.** -/
theorem not_listFits_of_imageList {e : ImageEntry} {es : List ImageEntry} {payload : List UInt8}
    (h : ImageList (e :: es) payload) : ¬ ListFits payload := by
  intro hfits
  obtain ⟨c, c', c'', hkey, hlist, hentries, -⟩ := beginsWith_iff.1 h
  have hlistAt : listAt payload = some c' := by
    rw [listAt, hkey, Option.bind_some, hlist]
    rfl
  have hroom : 0 < c'.room := by
    have hroom := start_room (by norm_num) hlist
    rw [room_keyAt hkey] at hroom
    omega
  obtain ⟨d, hmap, -⟩ := reads_cons_iff.1 hentries
  obtain ⟨c₁, c₂, hstart, hitems, -⟩ := hmap.map hroom
  have hrows := hfits.first c' hlistAt
  rw [entryAt, hstart] at hrows
  obtain ⟨a₁, hslot, hitems⟩ := reads_cons_iff.1 hitems
  obtain ⟨a₂, hvalue, hitems⟩ := reads_cons_iff.1 hitems
  obtain ⟨a₃, hversion, -⟩ := reads_cons_iff.1 hitems
  have hrest := ((hrows _ _ (tstr_eq_some.2 hslot)).2 (.int e.slot) a₂
    (Kind.read_eq_some.2 ⟨e.slot_fits, hvalue⟩)).2
  exact absurd (hrest _ _ (tstr_eq_some.2 hversion)).1 (by decide)

/-- The payload of a list of one image. -/
def oneImagePayload : List UInt8 :=
  indefByte 5 :: ((putString 3 (ascii "images") ++ (indefByte 4 ::
    ((indefByte 5 :: (sampleBytes 0 7 ++ [indefByte 7])) ++ [indefByte 7]))) ++ [indefByte 7])

theorem imageList_oneImagePayload : ImageList [sampleEntry 0 7] oneImagePayload :=
  ⟨[], .mapIndef (n := 1) rfl (encodes_putString_text (by decide) (.arrayIndef
    (.mapIndef (n := 8) rfl (encodes_sampleBytes 0 7) .nil) .nil)) .nil⟩

/-- The response with this payload. -/
def Response.oneImage : Response where
  bytes := frame 1 1 0 oneImagePayload
  size := by decide +kernel

/-- A genuine list of one image. -/
theorem not_inside_oneImage :
    ImageList [sampleEntry 0 7] (payloadOf Response.oneImage.bytes) ∧
      ¬ AllInside ((Parts.single .oneImage).deliver (smpListRspProc documented .zero) .zero) := by
  refine ⟨?_, ?_⟩
  · rw [Response.oneImage, payloadOf_frame]
    exact imageList_oneImagePayload
  · decide +kernel

end Smp
end NrfSamples
