/-
# Which hashes an image list stores

`smp_list_rsp_proc` in `bootloader_samples/client_smp/smp_client_ble/src/main.c`
copies a hash into `hash_value_primary_slot` or `hash_value_secondary_slot` as
soon as it has decoded it, with five flags of the entry, and perhaps another
entry, still to come.  It does not compare the length of the hash with the 33 bytes
of these arrays.

`SeesHashes.payload`: whatever is seen of the hashes, it depends on the first three rows of
each entry only (`firstHash`, `secondHash`); so it is for what is stored
(`seesHashes_hashes`), and for whether it is stored inside the arrays
(`seesHashes_inside`).  A response that is not decoded to its end leaves the stored
hashes alone exactly if no hash was decoded before, or the hash was stored already
(`smpListRspProc_atomic_iff`).
-/

import NrfSamples.Smp.GenuineList
import NrfSamples.Smp.ListBounds

namespace NrfSamples
namespace Smp

open Cbor Zcbor

/-- The hash that is decoded from an entry. -/
def hashAt (c : Cursor) : Option (List UInt8) :=
  (readRows [slotRow, versionRow] c).bind fun p => p.2.tstr.bind fun q => q.2.bstr.map Prod.fst

/-- The hash decoded from the first entry of a payload. -/
def firstHash (payload : List UInt8) : Option (List UInt8) :=
  (listAt payload).bind fun c => hashAt (entryAt c)

/-- The hash decoded from the second entry. -/
def secondHash (payload : List UInt8) : Option (List UInt8) :=
  (listAt payload).bind fun c => (readRows rows (entryAt c)).bind fun p => (nextAt p.2).bind hashAt

/-! ### What an entry stores -/

/-- The static arrays for the hashes. -/
def hashArrays : List String := ["hash_value_primary_slot", "hash_value_secondary_slot"]

/-- The arrays that a row copies its key and its value to. -/
def Row.arrays (row : Row) : List String :=
  row.keyArray :: match row.kind with
    | .text array _ _ => [array]
    | _ => []

/-- The row stores no hash. -/
structure Row.Hashless (row : Row) : Prop where
  kind : row.kind ≠ .hash
  arrays : ∀ a ∈ row.arrays, a ∉ hashArrays

/-- `f` sees nothing of the effects but the hashes: one that is stored changes it as `g`
says. -/
structure SeesHashes {γ : Type} (f : Effect → γ) (g : ℕ → List UInt8 → γ → γ) : Prop where
  log : ∀ (e : Effect) (log : List Print), f { e with log := log } = f e
  store : ∀ (e : Effect) (a : Store), a.array ∉ hashArrays → f (e.store a) = f e
  hash : ∀ (slot : ℕ) (key h : List UInt8) (e : Effect), f (hashEffect slot key h e) = g slot h (f e)

section Sees

variable {γ : Type} {f : Effect → γ} {g : ℕ → List UInt8 → γ → γ} (hf : SeesHashes f g)

include hf

theorem SeesHashes.print (e : Effect) (p : Print) : f (e.print p) = f e := hf.log e _

theorem SeesHashes.kind {row : Row} (hrow : row.Hashless) (slot : ℕ) (key : List UInt8)
    (v : Value) (e : Effect) : f (row.kind.effect slot key v e) = f e := by
  have harrays := hrow.arrays
  have hkind := hrow.kind
  rw [Row.arrays] at harrays
  cases hk : row.kind with
  | hash => exact absurd hk hkind
  | text array size msg =>
    rw [hk] at harrays
    cases v with
    | text s => exact (hf.print _ _).trans (hf.store e _ (harrays array (by simp)))
    | _ => rfl
  | int32 | flag =>
    cases v <;> first | rfl | exact hf.print _ _

/-- **Rows without a hash store none.**  Induction on the rows. -/
theorem SeesHashes.hashless {rs : List Row} (hrs : ∀ row ∈ rs, row.Hashless) (slot : ℕ) (c : Cursor)
    (e : Effect) : f (runRows slot rs c e).effect = f e := by
  induction rs generalizing c e with
  | nil => rfl
  | cons row rs ih =>
    have hrow := hrs row List.mem_cons_self
    have hkey : row.keyArray ∉ hashArrays := hrow.arrays _ List.mem_cons_self
    rw [runRows]
    rcases row.run_eq slot c e with ⟨p, c', -, hrun⟩ | ⟨-, e', msg, hrun, he⟩
    · have heffect : f (row.effect slot p e) = f e :=
        (hf.kind hrow slot _ _ _).trans (hf.store e _ hkey)
      rw [hrun, ← heffect]
      exact ih (fun row' h => hrs row' (List.mem_cons_of_mem _ h)) c' _
    · rw [hrun]
      refine (hf.print e' _).trans ?_
      rcases he with rfl | ⟨n, rfl⟩
      · rfl
      · exact hf.store e _ hkey

omit hf in
theorem hashless_others : ∀ row ∈ [slotRow, versionRow] ++ flagRows, row.Hashless := by
  have hkind : ∀ row ∈ [slotRow, versionRow] ++ flagRows, row.kind ≠ .hash := by
    simp [slotRow, versionRow, flagRows]
  have harrays : ∀ row ∈ [slotRow, versionRow] ++ flagRows, ∀ a ∈ row.arrays, a ∉ hashArrays := by
    decide
  exact fun row hrow => ⟨hkind row hrow, harrays row hrow⟩

/-- The row of the hash, and the flags behind it. -/
theorem SeesHashes.hashRows (slot : ℕ) (c : Cursor) (e : Effect) :
    f (runRows slot (hashRow :: flagRows) c e).effect =
      (c.tstr.bind fun q => q.2.bstr.map Prod.fst).elim (f e) fun h => g slot h (f e) := by
  have hkey : ∀ n, f (e.store ⟨hashRow.keyArray, hashRow.keySize, n⟩) = f e :=
    fun n => hf.store e _ (show "hash_key" ∉ hashArrays by decide)
  rw [runRows, Row.run]
  cases htext : c.tstr with
  | none => exact hf.print _ _
  | some k =>
    obtain ⟨key, c₁⟩ := k
    rw [Option.bind_some]
    dsimp only [Outcome.ofRead, Kind.run]
    cases hvalue : c₁.bstr with
    | none =>
      have hread : hashRow.kind.read c₁ = none := by
        rw [hashRow, Kind.read, hvalue]
        rfl
      rw [hread]
      exact (hf.print _ _).trans (hkey _)
    | some v =>
      obtain ⟨h, c₂⟩ := v
      have hread : hashRow.kind.read c₁ = some (.bytes h, c₂) := by
        rw [hashRow, Kind.read, hvalue]
        rfl
      rw [hread]
      have hflags : ∀ row ∈ flagRows, row.Hashless :=
        fun row hrow => hashless_others row (List.mem_append_right _ hrow)
      exact (hf.hashless hflags slot c₂ _).trans
        ((hf.hash slot _ h _).trans (congrArg (g slot h) (hkey _)))

/-- **What an entry stores**: the hash, if it is decoded, whatever comes after it. -/
theorem SeesHashes.entry (slot : ℕ) (c : Cursor) (e : Effect) :
    f (entryRun slot c e).effect = (hashAt c).elim (f e) fun h => g slot h (f e) := by
  have hrows : rows = [slotRow, versionRow] ++ hashRow :: flagRows := rfl
  have hbefore : f (runRows slot [slotRow, versionRow] c (e.print (heading slot))).effect = f e :=
    (hf.hashless (fun row hrow => hashless_others row (List.mem_append_left _ hrow)) slot c _).trans
      (hf.print e _)
  rw [entryRun, hrows, runRows_append, hashAt]
  cases hread : readRows [slotRow, versionRow] c with
  | none =>
    obtain ⟨e', msg, hrun⟩ := runRows_of_none slot hread (e.print (heading slot))
    rw [hrun] at hbefore ⊢
    exact hbefore
  | some p =>
    have hrun := runRows_of_read slot hread (e.print (heading slot))
    rw [hrun] at hbefore ⊢
    have hsame : f (rowsEffect slot [slotRow, versionRow] p.1 (e.print (heading slot))) = f e :=
      hbefore
    rw [Option.bind_some, ← hsame]
    exact hf.hashRows slot p.2 _

theorem SeesHashes.second (c : Cursor) (e : Effect) :
    f (secondRun c e) = ((nextAt c).bind hashAt).elim (f e) fun h => g 1 h (f e) := by
  rw [secondRun]
  cases nextAt c with
  | none => rfl
  | some c' => exact hf.entry 1 c' e

/-- What `f` sees behind the entries. -/
theorem SeesHashes.slots (c : Cursor) (e : Effect) :
    f (slotsRun c e) =
      ((readRows rows (entryAt c)).bind fun p => (nextAt p.2).bind hashAt).elim
        ((hashAt (entryAt c)).elim (f e) fun h => g 0 h (f e)) fun h' =>
          g 1 h' ((hashAt (entryAt c)).elim (f e) fun h => g 0 h (f e)) := by
  have hfirst : f (firstRun c e).effect =
      (hashAt (entryAt c)).elim (f e) fun h => g 0 h (f e) := by
    rw [firstRun, hf.entry, hf.log]
  rw [← hfirst]
  cases hread : readRows rows (entryAt c) with
  | none =>
    rw [slotsRun_of_none hread]
    rfl
  | some p =>
    rw [slotsRun_of_read hread, hf.second, Option.bind_some]

/-- **What is seen of a payload.** -/
theorem SeesHashes.payload (payload : List UInt8) (e : Effect) :
    f (listRun payload e) =
      (secondHash payload).elim ((firstHash payload).elim (f e) fun h => g 0 h (f e)) fun h' =>
        g 1 h' ((firstHash payload).elim (f e) fun h => g 0 h (f e)) := by
  have hkeyArray : ∀ n, f (e.store ⟨"images_key", 10, n⟩) = f e :=
    fun n => hf.store e _ (show "images_key" ∉ hashArrays by decide)
  rw [firstHash, secondHash, listAt]
  rcases listRun_cases payload e with ⟨hkey, msg, hrun⟩ | ⟨key, c, hkey, h⟩
  · rw [hrun, hkey]
    exact hf.print _ _
  · rw [hkey]
    rcases h with ⟨hlist, msg, hrun⟩ | ⟨c', hlist, hrun⟩
    · rw [hrun, Option.bind_some, hlist]
      exact (hf.print _ _).trans (hkeyArray _)
    · rw [hrun, Option.bind_some, hlist, hf.slots, hkeyArray]
      rfl

end Sees

/-! ### The stored hashes -/

/-- The two stored hashes. -/
def Effect.hashes (e : Effect) : List UInt8 × List UInt8 := (e.hashPrimary, e.hashSecondary)

/-- The stored hashes after a hash of the slot. -/
def storeHash (slot : ℕ) (hashes : List UInt8 × List UInt8) (h : List UInt8) :
    List UInt8 × List UInt8 :=
  if slot = 0 then (overwrite hashes.1 h, hashes.2) else (hashes.1, overwrite hashes.2 h)

theorem seesHashes_hashes : SeesHashes Effect.hashes fun slot h hashes => storeHash slot hashes h where
  log _ _ := rfl
  store _ _ _ := rfl
  hash slot key h e := by
    unfold storeHash
    split_ifs with hslot <;> simp [hashEffect, Effect.hashes, hslot]

/-- No copy of a hash goes past the array for it. -/
def Effect.HashesInside (e : Effect) : Prop :=
  ∀ a ∈ e.stores, a.array ∈ hashArrays → a.used ≤ a.size

theorem hashesInside_hash (slot : ℕ) (key h : List UInt8) (e : Effect) :
    (hashEffect slot key h e).HashesInside ↔ h.length ≤ 33 ∧ e.HashesInside := by
  have hlocal : "hash_value" ∉ hashArrays := by decide
  have hstatic : (if slot = 0 then "hash_value_primary_slot" else "hash_value_secondary_slot") ∈
      hashArrays := by
    split_ifs <;> decide
  simp only [Effect.HashesInside, hashEffect, List.forall_mem_append, List.forall_mem_cons]
  simp [hlocal, hstatic, and_comm]

theorem seesHashes_inside : SeesHashes Effect.HashesInside fun _ h inside => h.length ≤ 33 ∧ inside where
  log _ _ := rfl
  store e a ha := by
    refine propext ⟨fun h b hb => h b (List.mem_append_left _ hb), fun h b hb hin => ?_⟩
    rcases List.mem_append.1 hb with hb | hb
    · exact h b hb hin
    · exact absurd (List.mem_singleton.1 hb ▸ hin) ha
  hash slot key h e := propext (hashesInside_hash slot key h e)

/-! ### Atomicity -/

/-- The payload is decoded to its end: all rows of the first entry, or of two, and behind
the last one the end of its map, of the list and of the map around it, which is the end
of the payload. -/
def DecodesToEnd (payload : List UInt8) : Prop := ∃ l, readList payload = some l ∧ l.Ends

/-- Every hash that is decoded from the payload is what its array begins with; so it is
not longer than the array. -/
structure HoldsHashes (s : Statics) (payload : List UInt8) : Prop where
  first : ∀ h, firstHash payload = some h → h <+: s.hashPrimary
  second : ∀ h, secondHash payload = some h → h <+: s.hashSecondary

/-- The calls leave the stored hashes as they are, and copy nothing past their ends. -/
def KeepsHashes (s : Statics) (results : List RspResult) : Prop :=
  ∀ q ∈ results, (q.eff.hashPrimary = s.hashPrimary ∧ q.eff.hashSecondary = s.hashSecondary) ∧
    q.eff.HashesInside

/-- **A hash that changes nothing** is what the array begins with. -/
theorem overwrite_eq_self_iff {array h : List UInt8} (hsize : array.length = 33) :
    overwrite array h = array ∧ h.length ≤ 33 ↔ h <+: array := by
  constructor
  · rintro ⟨heq, hlen⟩
    rw [← heq, overwrite, List.take_of_length_le (by omega)]
    exact List.prefix_append _ _
  · rintro ⟨rest, rfl⟩
    rw [List.length_append] at hsize
    refine ⟨?_, by omega⟩
    rw [overwrite, List.take_of_length_le (by simp), List.drop_left' rfl]

/-- A hash that may have been decoded, into an array that goes with another one. -/
theorem elim_overwrite_iff {array : List UInt8} (hsize : array.length = 33)
    {o : Option (List UInt8)} {P : Prop} :
    o.elim array (overwrite array) = array ∧ o.elim P (fun h => h.length ≤ 33 ∧ P) ↔
      (∀ h, o = some h → h <+: array) ∧ P := by
  cases o with
  | none => simp
  | some h =>
    simp only [Option.elim_some, Option.some.injEq, forall_eq', ← overwrite_eq_self_iff hsize,
      and_assoc]

/-- **What a payload stores.** -/
theorem listRun_hashes (payload : List UInt8) (e : Effect) :
    (listRun payload e).hashes =
      ((firstHash payload).elim e.hashPrimary (overwrite e.hashPrimary),
        (secondHash payload).elim e.hashSecondary (overwrite e.hashSecondary)) := by
  rw [seesHashes_hashes.payload]
  cases firstHash payload <;> cases secondHash payload <;> rfl

/-- **When a payload leaves the stored hashes as they are.** -/
theorem listRun_keeps_iff (payload : List UInt8) {s : Statics} (hs : s.Sized) (log : List Print) :
    (((listRun payload (s.effect log)).hashPrimary = s.hashPrimary ∧
      (listRun payload (s.effect log)).hashSecondary = s.hashSecondary) ∧
      (listRun payload (s.effect log)).HashesInside) ↔ HoldsHashes s payload := by
  have hprimary : (listRun payload (s.effect log)).hashPrimary =
      (firstHash payload).elim s.hashPrimary (overwrite s.hashPrimary) :=
    congrArg Prod.fst (listRun_hashes payload (s.effect log))
  have hsecondary : (listRun payload (s.effect log)).hashSecondary =
      (secondHash payload).elim s.hashSecondary (overwrite s.hashSecondary) :=
    congrArg Prod.snd (listRun_hashes payload (s.effect log))
  have hstart : (s.effect log).HashesInside := fun a ha => absurd ha List.not_mem_nil
  rw [hprimary, hsecondary, seesHashes_inside.payload, and_assoc, elim_overwrite_iff hs.secondary,
    and_left_comm, elim_overwrite_iff hs.primary]
  exact ⟨fun h => ⟨h.2.1, h.1⟩, fun h => ⟨h.second, h.first, hstart⟩⟩

/-- **When an image list is atomic.**  For a response that fits the buffer, however it
is split: without a header that passes and a payload decoded to its end, the stored
hashes are kept. -/
theorem smpListRspProc_atomic_iff (z : ZcborDecoder) (m : Memory) {r : Response}
    (hfits : r.Fits) (ps : Parts r) {s : Statics} (hs : s.Sized) :
    (¬ (listCheck.Accepts r.bytes ∧ DecodesToEnd (payloadOf r.bytes)) →
        KeepsHashes s (ps.deliver (smpListRspProc z m) s)) ↔
      (listCheck.Accepts r.bytes →
        DecodesToEnd (payloadOf r.bytes) ∨ HoldsHashes s (payloadOf r.bytes)) := by
  have hnone : ∀ log, (s.effect log).HashesInside := fun log a ha => absurd ha List.not_mem_nil
  have hall := deliver_list_iff z m hfits ps s
    (P := fun e => (e.hashPrimary = s.hashPrimary ∧ e.hashSecondary = s.hashSecondary) ∧
      e.HashesInside)
    ⟨⟨rfl, rfl⟩, hnone _⟩ fun line => ⟨⟨rfl, rfl⟩, hnone _⟩
  rw [KeepsHashes, hall, listRun_keeps_iff _ hs]
  tauto

/-- The response whose payload breaks off after the first hash: `{_ "images": [_ {_
"slot": 0, "vers": "1.0", "hash": h`, where `h` is 32 bytes. -/
def Response.brokenOff : Response where
  bytes := frame 1 1 0 ([0xBF, 0x66, 0x69, 0x6D, 0x61, 0x67, 0x65, 0x73, 0x9F, 0xBF,
    0x64, 0x73, 0x6C, 0x6F, 0x74, 0x00, 0x64, 0x76, 0x65, 0x72, 0x73, 0x63, 0x31, 0x2E, 0x30,
    0x64, 0x68, 0x61, 0x73, 0x68, 0x58, 0x20] ++ List.replicate 32 7)
  size := by decide +kernel

theorem not_decodesToEnd_brokenOff : ¬ DecodesToEnd (payloadOf Response.brokenOff.bytes) := by
  have hread : (readList (payloadOf Response.brokenOff.bytes)).isSome = false := by decide +kernel
  rintro ⟨l, hl, -⟩
  rw [hl] at hread
  cases hread

/-- The static variables after responses with this hash for both images. -/
def Statics.sevens : Statics :=
  let hash := List.replicate 32 7 ++ [0]
  { Statics.zero with hashPrimary := hash, hashSecondary := hash }

/-- Its hash is stored already: nothing changes. -/
theorem smpListRspProc_atomic_brokenOff :
    KeepsHashes .sevens
      ((Parts.single .brokenOff).deliver (smpListRspProc documented .zero) .sevens) := by
  have hfirst : firstHash (payloadOf Response.brokenOff.bytes) = some (List.replicate 32 7) := by
    decide +kernel
  have hsecond : secondHash (payloadOf Response.brokenOff.bytes) = none := by decide +kernel
  refine (smpListRspProc_atomic_iff documented .zero (by decide +kernel) (Parts.single .brokenOff)
    (s := .sevens) ⟨rfl, rfl⟩).2 (fun _ => .inr ⟨?_, ?_⟩) fun h => not_decodesToEnd_brokenOff h.2
  · rintro h hh
    obtain rfl := Option.some.inj (hfirst.symm.trans hh)
    exact List.prefix_append _ _
  · simp [hsecond]

/-- Before that it is not: the hash is stored, and the response is not decoded to its
end. -/
theorem not_atomic_brokenOff :
    ¬ (¬ (listCheck.Accepts Response.brokenOff.bytes ∧
          DecodesToEnd (payloadOf Response.brokenOff.bytes)) →
        KeepsHashes .zero
          ((Parts.single .brokenOff).deliver (smpListRspProc documented .zero) .zero)) := by
  intro h
  have hstored : ¬ ∀ q ∈ (Parts.single .brokenOff).deliver (smpListRspProc documented .zero) .zero,
      q.eff.hashPrimary = Statics.zero.hashPrimary := by decide +kernel
  exact hstored fun q hq => (h (fun h => not_decodesToEnd_brokenOff h.2) q hq).1.1

end Smp
end NrfSamples
