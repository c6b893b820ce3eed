/-
# Which image lists are accepted

`smp_list_rsp_proc` in `bootloader_samples/client_smp/smp_client_ble/src/main.c`
reports a call that fails, except those that close a map or list and the one that
opens the second entry.  It compares no key with a name, and
`zcbor_bool_expect`, as `cbor_module_patch_dfu_mcumgr.patch` leaves it, takes any
simple value for a flag.

`listRun_clean`: no error is reported exactly if the payload can be read
(`readList`).  `smpListRspProc_accepts_iff`: what is accepted is a genuine list of
one or two images, and is shown as it is, exactly if what is read has the names
and the booleans of one and ends as one does (`ListReading.Strict`).
-/

import NrfSamples.Smp.GenuineList
import NrfSamples.Smp.ListAtomic

namespace NrfSamples
namespace Smp

open Cbor Zcbor

/-! ### Lists without an error -/

/-- No error is reported. -/
def Effect.Clean (e : Effect) : Prop := ∀ p ∈ e.log, Arg.err ∉ p.args

instance (e : Effect) : Decidable e.Clean := inferInstanceAs (Decidable (∀ p ∈ e.log, _))

@[simp] theorem clean_print (e : Effect) (p : Print) :
    (e.print p).Clean ↔ e.Clean ∧ Arg.err ∉ p.args := by
  simp [Effect.Clean, Effect.print, or_imp, forall_and]

@[simp] theorem clean_store (e : Effect) (a : Store) : (e.store a).Clean ↔ e.Clean := Iff.rfl

theorem Kind.clean_effect (slot : ℕ) (key : List UInt8) (k : Kind) (v : Value) (e : Effect) :
    (k.effect slot key v e).Clean ↔ e.Clean := by
  cases k <;> cases v <;> simp [Kind.effect]
  case hash.bytes h =>
    have hlines : ∀ p ∈ (⟨"      %s: 0x", [.str key]⟩ : Print) ::
        (h.map (fun b => ⟨"%x", [.hex b]⟩) ++ [⟨"\n", []⟩]), Arg.err ∉ p.args := by
      intro p hp
      rcases List.mem_cons.1 hp with rfl | hp
      · simp
      · rcases List.mem_append.1 hp with hp | hp
        · obtain ⟨b, -, rfl⟩ := List.mem_map.1 hp
          simp
        · rw [List.mem_singleton.1 hp]
          simp
    simp only [Effect.Clean, hashEffect, List.forall_mem_append]
    exact and_iff_left hlines

/-- **Rows that are read report no error.**  Induction on the rows. -/
theorem rowsEffect_clean (slot : ℕ) (rs : List Row) (kvs : List Pair) (e : Effect) :
    (rowsEffect slot rs kvs e).Clean ↔ e.Clean := by
  induction rs generalizing kvs e with
  | nil => cases kvs <;> rfl
  | cons row rs ih =>
    cases kvs with
    | nil => rfl
    | cons p kvs =>
      rw [rowsEffect, ih, Row.effect, Kind.clean_effect]
      rfl

theorem entryRun_clean (slot : ℕ) (c : Cursor) (e : Effect) :
    (entryRun slot c e).effect.Clean ↔ e.Clean ∧ (readRows rows c).isSome := by
  rw [entryRun]
  cases hread : readRows rows c with
  | none =>
    obtain ⟨e', msg, hrun⟩ := runRows_of_none slot hread (e.print (heading slot))
    rw [hrun]
    simp [Outcome.effect]
  | some p =>
    rw [runRows_of_read slot hread]
    simp [Outcome.effect, rowsEffect_clean, heading]

theorem secondRun_clean (c : Cursor) (e : Effect) :
    (secondRun c e).Clean ↔ e.Clean ∧ ∀ c', nextAt c = some c' → (readRows rows c').isSome := by
  rw [secondRun]
  cases nextAt c with
  | none => simp
  | some c' => simp [entryRun_clean]

theorem readEntries_isSome (key : List UInt8) (c : Cursor) :
    (readEntries key c).isSome ↔ (readRows rows c).isSome ∧ ∀ kvs c₁ c₂,
      readRows rows c = some (kvs, c₁) → nextAt c₁ = some c₂ → (readRows rows c₂).isSome := by
  rw [readEntries]
  cases readRows rows c with
  | none => simp
  | some p =>
    obtain ⟨kvs, c₁⟩ := p
    rw [Option.bind_some]
    constructor
    · intro h
      refine ⟨rfl, ?_⟩
      rintro _ _ c₂ ⟨⟩ hnext
      dsimp only at h
      rw [hnext, Option.isSome_map] at h
      exact h
    · rintro ⟨-, h⟩
      cases hnext : nextAt c₁ with
      | none => rfl
      | some c₂ =>
        rw [Option.isSome_map]
        exact h kvs c₁ c₂ rfl hnext

theorem slotsRun_clean (key : List UInt8) (c : Cursor) (e : Effect) :
    (slotsRun c e).Clean ↔
      e.Clean ∧ (c.mapStart.bind fun m => readEntries key m.2).isSome := by
  have hfirst : (firstRun c e).effect.Clean ↔
      (e.Clean ∧ c.mapStart.isSome) ∧ (readRows rows (entryAt c)).isSome := by
    rw [firstRun, entryRun_clean]
    refine and_congr_left fun _ => ?_
    cases hstart : c.mapStart <;> simp [Effect.Clean, slotLines, hstart]
  rw [slotsRun_iff secondRun_clean, hfirst]
  cases hstart : c.mapStart with
  | none => simp
  | some p =>
    obtain ⟨⟨⟩, c'⟩ := p
    have hentry : entryAt c = c' := by rw [entryAt, hstart]; rfl
    rw [hentry, Option.bind_some, readEntries_isSome, Option.isSome_some, and_assoc, and_assoc]
    tauto

/-- **No error is reported exactly if the payload can be read.** -/
theorem listRun_clean (payload : List UInt8) (e : Effect) :
    (listRun payload e).Clean ↔ e.Clean ∧ (readList payload).isSome := by
  rw [readList]
  rcases listRun_cases payload e with ⟨hkey, msg, hrun⟩ | ⟨key, c, hkey, h⟩
  · rw [hrun, hkey]
    simp
  · rw [hkey]
    rcases h with ⟨hlist, msg, hrun⟩ | ⟨c', hlist, hrun⟩
    · rw [hrun, Option.bind_some, hlist]
      simp
    · rw [hrun, Option.bind_some, hlist, slotsRun_clean key]
      rfl

/-! ### What is shown -/

/-- What the handler does with a payload that it can read. -/
def ListReading.effect (l : ListReading) (e : Effect) : Effect :=
  let e := rowsEffect 0 rows l.first
    ((e.store ⟨"images_key", 10, l.key.length + 1⟩).print (heading 0))
  match l.second with
  | none => e
  | some kvs => rowsEffect 1 rows kvs (e.print (heading 1))

theorem listRun_of_readList {payload : List UInt8} {l : ListReading}
    (hl : readList payload = some l) (e : Effect) : listRun payload e = l.effect e := by
  obtain ⟨c, c', c₁, c₂, hkey, hlist, hmap, hread, hsecond⟩ := readList_eq_some.1 hl
  have hentry : entryAt c' = c₁ := by rw [entryAt, hmap]; rfl
  have hlines : slotLines c' = [] := by rw [slotLines, hmap]; rfl
  have hrun : listRun payload e =
      slotsRun c' (e.store ⟨"images_key", 10, l.key.length + 1⟩) := by
    rcases listRun_cases payload e with ⟨hno, -⟩ | ⟨key, d, hkey', h⟩
    · cases hkey.symm.trans hno
    · cases hkey.symm.trans hkey'
      rcases h with ⟨hno, -⟩ | ⟨d', hlist', hrun⟩
      · cases hlist.symm.trans hno
      · cases hlist.symm.trans hlist'
        exact hrun
  have hfirst : (firstRun c' (e.store ⟨"images_key", 10, l.key.length + 1⟩)).effect =
      rowsEffect 0 rows l.first
        ((e.store ⟨"images_key", 10, l.key.length + 1⟩).print (heading 0)) := by
    rw [firstRun, hentry, hlines, List.append_nil, entryRun, runRows_of_read 0 hread]
    rfl
  rw [hrun, slotsRun_of_read (by rw [hentry]; exact hread), hfirst, secondRun, ListReading.effect]
  rcases hsecond with ⟨hnext, hnone, -⟩ | ⟨c₃, kvs, hnext, hread', hsome⟩
  · simp only [hnext, hnone]
  · simp only [hnext, hsome, entryRun, runRows_of_read 1 hread', Outcome.effect]

/-- The line that shows a flag. -/
def flagLine (name : String) (b : Bool) : Print :=
  ⟨"      %s: %s\n", [.str (ascii name), .str (ascii (if b then "true" else "false"))]⟩

/-- The lines that show an image, with these arguments in the line of its version. -/
def ListedImage.linesWith (slot : ℕ) (im : ListedImage) (version : List Arg) : List Print :=
  heading slot :: ⟨"      %s: %d\n", [.str (ascii "slot"), .int im.slot]⟩ ::
    ⟨"      %s: %s\n", version⟩ ::
    ⟨"      %s: 0x", [.str (ascii "hash")]⟩ ::
    (im.hash.map (fun b => ⟨"%x", [.hex b]⟩) ++ ⟨"\n", []⟩ ::
      [flagLine "bootable" im.bootable, flagLine "pending" im.pending,
        flagLine "confirmed" im.confirmed, flagLine "active" im.active,
        flagLine "permanent" im.permanent])

/-- The lines that show an image. -/
def ListedImage.lines (slot : ℕ) (im : ListedImage) : List Print :=
  im.linesWith slot [.str (ascii "version"), .str (cString im.version)]

@[simp] theorem log_print (e : Effect) (p : Print) : (e.print p).log = e.log ++ [p] := rfl

@[simp] theorem log_store (e : Effect) (a : Store) : (e.store a).log = e.log := rfl

/-- A value of a flag prints its line. -/
theorem Kind.flag_log (msg name : String) (hname : cString (ascii name) = ascii name) (slot : ℕ)
    (b : Bool) (e : Effect) :
    ((Kind.flag msg).effect slot (cString (ascii name)) (flagValue b) e).log =
      e.log ++ [flagLine name b] := by
  rw [hname]
  cases b <;> rfl

/-- **The rows of an image print its lines.** -/
theorem rowsEffect_log (slot : ℕ) (im : ListedImage) (e : Effect) :
    (rowsEffect slot rows im.pairs (e.print (heading slot))).log = e.log ++ im.lines slot := by
  have hslot : cString (ascii "slot") = ascii "slot" := by decide
  have hversion : cString (ascii "version") = ascii "version" := by decide
  have hhash : cString (ascii "hash") = ascii "hash" := by decide
  simp only [ListedImage.pairs, rows, slotRow, versionRow, hashRow, flagRows, rowsEffect, Row.effect]
  rw [Kind.flag_log _ "permanent" (by decide), log_store, Kind.flag_log _ "active" (by decide),
    log_store, Kind.flag_log _ "confirmed" (by decide), log_store,
    Kind.flag_log _ "pending" (by decide), log_store, Kind.flag_log _ "bootable" (by decide),
    log_store]
  simp [Kind.effect, hashEffect, hslot, hversion, hhash, ListedImage.lines,
    ListedImage.linesWith]

/-- What an image that is read does. -/
def imageEffect (e : Effect) (p : ListedImage × ℕ) : Effect :=
  rowsEffect p.2 rows p.1.pairs (e.print (heading p.2))

/-- **Images that are read** have their effects, one after another. -/
theorem ListReading.effect_eq {l : ListReading} {ims : List ListedImage}
    (hlen : ims.length = 1 ∨ ims.length = 2)
    (hpairs : l.first :: l.second.toList = ims.map ListedImage.pairs) (e : Effect) :
    l.effect e = ims.zipIdx.foldl imageEffect (e.store ⟨"images_key", 10, l.key.length + 1⟩) := by
  rw [ListReading.effect]
  rcases hlen with hlen | hlen
  · obtain ⟨im, rfl⟩ := List.length_eq_one_iff.1 hlen
    obtain ⟨hfirst, hrest⟩ := List.cons.inj hpairs
    have hsecond : l.second = none := Option.toList_eq_nil_iff.1 hrest
    simp only [hfirst, hsecond]
    rfl
  · obtain ⟨im, im', rfl⟩ := List.length_eq_two.1 hlen
    obtain ⟨hfirst, hrest⟩ := List.cons.inj hpairs
    have hsecond : l.second = some im'.pairs := Option.toList_eq_singleton_iff.1 hrest
    simp only [hfirst, hsecond]
    rfl

/-- The lines that show the images, the first one in slot 0. -/
def shownLines (ims : List ListedImage) : List Print := ims.zipIdx.flatMap fun p => p.1.lines p.2

/-- The lines of images, behind what was printed before.  Induction on the images. -/
theorem foldl_imageEffect_log (ps : List (ListedImage × ℕ)) (e : Effect) :
    (ps.foldl imageEffect e).log = e.log ++ ps.flatMap fun p => p.1.lines p.2 := by
  induction ps generalizing e with
  | nil => simp
  | cons p ps ih =>
    have hlog : (imageEffect e p).log = e.log ++ p.1.lines p.2 := rowsEffect_log p.2 p.1 e
    rw [List.foldl_cons, ih, hlog, List.flatMap_cons, List.append_assoc]

/-- **Images that are read are shown as they are.** -/
theorem ListReading.effect_log {l : ListReading} {ims : List ListedImage}
    (hlen : ims.length = 1 ∨ ims.length = 2)
    (hpairs : l.first :: l.second.toList = ims.map ListedImage.pairs) (e : Effect) :
    (l.effect e).log = e.log ++ shownLines ims := by
  rw [ListReading.effect_eq hlen hpairs, foldl_imageEffect_log, log_store]
  rfl

/-! ### Acceptance -/

/-- If the last call accepts the header and reports no error, then the payload is a
genuine list of one or two images, and their lines are printed. -/
def AcceptsGenuine (r : Response) (results : List RspResult) : Prop :=
  ∀ last, results.getLast? = some last → last.decoded.isSome → last.eff.Clean →
    ∃ ims : List ListedImage, (ims.length = 1 ∨ ims.length = 2) ∧
      GenuineImages ims (payloadOf r.bytes) ∧ last.eff.log = shownLines ims

/-- **When only genuine image lists are accepted**, for a response that fits the buffer,
however it is split. -/
theorem smpListRspProc_accepts_iff (z : ZcborDecoder) (m : Memory) {r : Response}
    (hfits : r.Fits) (ps : Parts r) (s : Statics) :
    AcceptsGenuine r (ps.deliver (smpListRspProc z m) s) ↔
      (listCheck.Accepts r.bytes → ∀ l, readList (payloadOf r.bytes) = some l → l.Strict) := by
  obtain ⟨pre, last, hrun, -, hdecoded, hyes, -⟩ := deliver_list z m hfits ps s
  have hstart : (s.effect []).Clean := by
    intro p hp
    cases hp
  rw [hrun, AcceptsGenuine, List.getLast?_concat]
  constructor
  · intro h ha l hl
    have hclean : last.eff.Clean := by
      rw [hyes ha, listRun_clean, hl]
      exact ⟨hstart, rfl⟩
    obtain ⟨ims, hlen, hgenuine, -⟩ := h last rfl (by rw [hdecoded, if_pos ha]; rfl) hclean
    obtain ⟨l', hl', hreading⟩ := (genuineImages_iff hlen).1 hgenuine
    cases hl.symm.trans hl'
    exact (strict_iff hl).2 ⟨ims, hlen, hreading⟩
  · rintro h _ ⟨⟩ hsome hclean
    have ha : listCheck.Accepts r.bytes := by
      by_contra ha
      rw [hdecoded, if_neg ha] at hsome
      cases hsome
    rw [hyes ha] at hclean ⊢
    obtain ⟨l, hl⟩ := Option.isSome_iff_exists.1 ((listRun_clean _ _).1 hclean).2
    obtain ⟨ims, hlen, hkey, hpairs, hends⟩ := (strict_iff hl).1 (h ha l hl)
    refine ⟨ims, hlen, (genuineImages_iff hlen).2 ⟨l, hl, hkey, hpairs, hends⟩, ?_⟩
    rw [listRun_of_readList hl]
    exact ListReading.effect_log hlen hpairs _

/-- A genuine list of one image. -/
theorem smpListRspProc_accepts_oneImage :
    AcceptsGenuine .oneImage
      ((Parts.single .oneImage).deliver (smpListRspProc documented .zero) .zero) := by
  have hgenuine : GenuineImages [(sampleEntry 0 7).listed] (payloadOf Response.oneImage.bytes) := by
    rw [Response.oneImage, payloadOf_frame]
    exact (genuineImages_listed [sampleEntry 0 7] _).2 imageList_oneImagePayload
  refine (smpListRspProc_accepts_iff documented .zero (by decide +kernel)
    (Parts.single .oneImage) .zero).2 fun _ l hl => ?_
  obtain ⟨l', hl', hreading⟩ := (genuineImages_iff (.inl rfl)).1 hgenuine
  cases hl.symm.trans hl'
  exact (strict_iff hl).2 ⟨_, .inl rfl, hreading⟩

/-- The response with the payload `{_ "list": [_ {_ "s": 0, "v": "1", "h": h'', "b": null,
"p": null, "c": null, "a": null, "x": null}]}`. -/
def Response.otherNames : Response where
  bytes := frame 1 1 0 [0xBF, 0x64, 0x6C, 0x69, 0x73, 0x74, 0x9F, 0xBF,
    0x61, 0x73, 0x00, 0x61, 0x76, 0x61, 0x31, 0x61, 0x68, 0x40, 0x61, 0x62, 0xF6,
    0x61, 0x70, 0xF6, 0x61, 0x63, 0xF6, 0x61, 0x61, 0xF6, 0x61, 0x78, 0xF6, 0xFF, 0xFF, 0xFF]
  size := by decide

/-- It is accepted, and no flag of it is a boolean. -/
theorem not_accepts_otherNames :
    ¬ AcceptsGenuine .otherNames
      ((Parts.single .otherNames).deliver (smpListRspProc documented .zero) .zero) := by
  intro h
  have haccepted : ((Parts.single .otherNames).deliver
      (smpListRspProc documented .zero) .zero).getLast?.any
      (fun q => q.decoded.isSome && decide q.eff.Clean) = true := by decide +kernel
  have hkey : (readList (payloadOf Response.otherNames.bytes)).map ListReading.key =
      some (ascii "list") := by decide +kernel
  obtain ⟨last, hlast, hq⟩ := (Option.any_eq_true _ _).1 haccepted
  obtain ⟨hdecoded, hclean⟩ := Bool.and_eq_true_iff.1 hq
  obtain ⟨ims, hlen, hgenuine, -⟩ := h last hlast hdecoded (of_decide_eq_true hclean)
  obtain ⟨l, hl, himages, -⟩ := (genuineImages_iff hlen).1 hgenuine
  rw [hl, Option.map_some, himages] at hkey
  exact absurd (Option.some.inj hkey) (by decide)

end Smp
end NrfSamples
