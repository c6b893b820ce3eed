/-
# Every genuine image list is shown and stored

`ListAccept` asks which of the lists that `smp_list_rsp_proc` in
`bootloader_samples/client_smp/smp_client_ble/src/main.c` accepts are genuine.
Here is the other direction: what becomes of a genuine list, of any number of
images and however the response is split.

`smpListRspProc_genuine`: the first two images are shown, and their hashes are
stored, the first for the primary and the second for the secondary slot.  With a
short version and hash the only copies outside their arrays are those of the key
`version`, which takes eight bytes; `version_key` has five.  What `%s` prints of
it depends on what lies behind, so the line of the version is left open.

`commands_after_list`: test and confirm name the second image, or what they named
before when there is none.
-/

import NrfSamples.Smp.ImageCommand
import NrfSamples.Smp.ListAccept

namespace NrfSamples
namespace Smp

open Cbor Zcbor

/-! ### Reading -/

/-- **A genuine list is read**, as its first two images. -/
theorem GenuineImages.exists_readList {ims : List ListedImage} {payload : List UInt8}
    (h : GenuineImages ims payload) (hne : ims ≠ []) :
    ∃ l, readList payload = some l ∧ l.key = ascii "images" ∧
      l.first :: l.second.toList = (ims.take 2).map ListedImage.pairs := by
  obtain ⟨c, c', d, hkey, hlist, hreads, e, -, -, -, hfinish, -⟩ := beginsWith_iff.1 h
  have hroom : 0 < c'.room := by
    rw [room_list hkey hlist]
    norm_num
  obtain ⟨im, rest, rfl⟩ := List.exists_cons_of_ne_nil hne
  obtain ⟨c₀, hfirst, hrest⟩ := reads_cons_iff.1 hreads
  obtain ⟨c₁, c₂, hmap, hread, hend⟩ := (reads_image_iff hroom).1 hfirst
  cases rest with
  | nil =>
    -- the list ends there, so no second map starts
    obtain rfl := reads_nil_iff.1 hrest
    have hnext : nextAt c₂ = none := by
      rw [nextAt, hend, Option.bind_some, mapStart_of_finish hfinish]
      rfl
    exact ⟨⟨ascii "images", im.pairs, none, c₂⟩, readList_eq_some.2
      ⟨c, c', c₁, c₂, hkey, hlist, hmap, hread, .inl ⟨hnext, rfl, rfl⟩⟩, rfl, rfl⟩
  | cons im' rest =>
    obtain ⟨c₃, hsecond, -⟩ := reads_cons_iff.1 hrest
    obtain ⟨c₄, c₅, hmap', hread', -⟩ :=
      (reads_image_iff (by rwa [← hfirst.room])).1 hsecond
    exact ⟨⟨ascii "images", im.pairs, some im'.pairs, c₅⟩, readList_eq_some.2
      ⟨c, c', c₁, c₂, hkey, hlist, hmap, hread,
        .inr ⟨c₄, im'.pairs, nextAt_eq_some.2 ⟨c₀, hend, hmap'⟩, hread', rfl⟩⟩, rfl, rfl⟩

/-! ### Storing -/

/-- What is stored for the two slots after a list of these images. -/
def storedHashes (hashes : List UInt8 × List UInt8) (ims : List ListedImage) :
    List UInt8 × List UInt8 :=
  ims.zipIdx.foldl (fun hs p => storeHash p.2 hs p.1.hash) hashes

/-- An image that is read stores its hash. -/
theorem imageEffect_hashes (e : Effect) (p : ListedImage × ℕ) :
    (imageEffect e p).hashes = storeHash p.2 e.hashes p.1.hash := by
  have hother : ∀ {k : Kind} (_ : k ≠ .hash) (key : List UInt8) (v : Value) (e : Effect),
      (k.effect p.2 key v e).hashes = e.hashes := by
    intro k hk key v e
    cases k <;> cases v <;> first | rfl | exact absurd rfl hk
  have hhash : ∀ (key h : List UInt8) (e : Effect),
      (Kind.hash.effect p.2 key (.bytes h) e).hashes = storeHash p.2 e.hashes h :=
    fun key h e => seesHashes_hashes.hash p.2 key h e
  have hstore : ∀ (a : Store) (e : Effect), (e.store a).hashes = e.hashes := fun _ _ => rfl
  have hprint : ∀ (l : Print) (e : Effect), (e.print l).hashes = e.hashes := fun _ _ => rfl
  simp [imageEffect, ListedImage.pairs, rows, slotRow, versionRow, hashRow, flagRows, rowsEffect,
    Row.effect, hother, hhash, hstore, hprint]

/-- The version and the hash of an image fit their arrays. -/
structure ListedImage.Short (im : ListedImage) : Prop where
  version : im.version.length ≤ 4
  hash : im.hash.length ≤ 33

/-- A copy that is inside its array, or that of the key `version`: seven characters and a
NUL, three bytes more than `version_key` has. -/
def Store.Expected (a : Store) : Prop := a.used ≤ a.size ∨ a = ⟨"version_key", 5, 8⟩

/-- No other copy was made. -/
def Effect.InsideButVersion (e : Effect) : Prop := ∀ a ∈ e.stores, a.Expected

theorem insideButVersion_store (e : Effect) (a : Store) :
    (e.store a).InsideButVersion ↔ e.InsideButVersion ∧ a.Expected := by
  simp only [Effect.InsideButVersion, Effect.store, List.forall_mem_append,
    List.forall_mem_singleton]

theorem Kind.insideButVersion_effect (slot : ℕ) (key : List UInt8) {k : Kind} {v : Value}
    (hfits : k.Fits v) {e : Effect} (he : e.InsideButVersion) :
    (k.effect slot key v e).InsideButVersion := by
  obtain ⟨copies, hstores, hiff⟩ := k.effect_stores slot key v e
  rw [Effect.InsideButVersion, hstores, List.forall_mem_append]
  exact ⟨he, fun a ha => .inl (hiff.2 hfits a ha)⟩

/-- **Rows whose copies are expected.**  Induction on the rows. -/
theorem rowsEffect_insideButVersion (slot : ℕ) {rs : List Row} {kvs : List Pair}
    (h : List.Forall₂ (fun (row : Row) (p : Pair) =>
      Store.Expected ⟨row.keyArray, row.keySize, p.1.length + 1⟩ ∧ row.kind.Fits p.2) rs kvs)
    {e : Effect} (he : e.InsideButVersion) : (rowsEffect slot rs kvs e).InsideButVersion := by
  induction h generalizing e with
  | nil => exact he
  | cons hrow _ ih =>
    obtain ⟨hkey, hvalue⟩ := hrow
    exact ih (Kind.insideButVersion_effect slot _ hvalue
      ((insideButVersion_store _ _).2 ⟨he, hkey⟩))

/-- A short image that is read makes no other copy. -/
theorem imageEffect_insideButVersion {p : ListedImage × ℕ} (hp : p.1.Short) {e : Effect}
    (he : e.InsideButVersion) : (imageEffect e p).InsideButVersion := by
  refine rowsEffect_insideButVersion p.2 ?_ he
  have hversion : p.1.version.length + 1 ≤ 5 := Nat.succ_le_succ hp.version
  simp only [rows, slotRow, versionRow, hashRow, flagRows, ListedImage.pairs,
    List.forall₂_cons, List.Forall₂.nil, and_true]
  exact ⟨⟨.inl (by decide), trivial⟩, ⟨.inr rfl, hversion⟩, ⟨.inl (by decide), hp.hash⟩,
    ⟨.inl (by decide), trivial⟩, ⟨.inl (by decide), trivial⟩, ⟨.inl (by decide), trivial⟩,
    ⟨.inl (by decide), trivial⟩, .inl (by decide), trivial⟩

/-- Short images make no other copy.  Induction on the images. -/
theorem foldl_insideButVersion {ps : List (ListedImage × ℕ)} (hps : ∀ p ∈ ps, p.1.Short)
    {e : Effect} (he : e.InsideButVersion) : (ps.foldl imageEffect e).InsideButVersion := by
  induction ps generalizing e with
  | nil => exact he
  | cons p ps ih =>
    obtain ⟨hp, hps⟩ := List.forall_mem_cons.1 hps
    exact ih hps (imageEffect_insideButVersion hp he)

theorem length_take_two {α : Type} {xs : List α} (hne : xs ≠ []) :
    (xs.take 2).length = 1 ∨ (xs.take 2).length = 2 := by
  have := List.length_pos_of_ne_nil hne
  rw [List.length_take]
  omega

/-- **What a genuine list does**: that of its first two images, one after another. -/
theorem listRun_genuine {ims : List ListedImage} {payload : List UInt8}
    (h : GenuineImages ims payload) (hne : ims ≠ []) (e : Effect) :
    listRun payload e = (ims.take 2).zipIdx.foldl imageEffect (e.store ⟨"images_key", 10, 7⟩) := by
  obtain ⟨l, hl, hkey, hpairs⟩ := h.exists_readList hne
  rw [listRun_of_readList hl, ListReading.effect_eq (length_take_two hne) hpairs, hkey]
  rfl

/-- The hashes that a genuine list stores. -/
theorem listRun_genuine_hashes {ims : List ListedImage} {payload : List UInt8}
    (h : GenuineImages ims payload) (hne : ims ≠ []) (e : Effect) :
    (listRun payload e).hashes = storedHashes e.hashes (ims.take 2) := by
  rw [listRun_genuine h hne, storedHashes]
  exact (List.foldl_hom Effect.hashes fun e p => (imageEffect_hashes e p).symm).symm

/-- The lines show the images, but the line of the version may show anything. -/
def ShowsButVersion (ims : List ListedImage) (log : List Print) : Prop :=
  ∃ version : ListedImage × ℕ → List Arg,
    log = ims.zipIdx.flatMap fun p => p.1.linesWith p.2 (version p)

/-- **What becomes of a genuine list.**  Of any number of images, for a response that
fits the buffer, however it is split. -/
theorem smpListRspProc_genuine (z : ZcborDecoder) (m : Memory) {r : Response} (hfits : r.Fits)
    (ha : listCheck.Accepts r.bytes) {ims : List ListedImage} (hne : ims ≠ [])
    (h : GenuineImages ims (payloadOf r.bytes)) (hshort : ∀ im ∈ ims.take 2, im.Short)
    (ps : Parts r) (s : Statics) :
    ∃ pre last, ps.deliver (smpListRspProc z m) s = pre ++ [last] ∧
      CopyParts (fun _ => []) ps.delivered s pre ∧
      ShowsButVersion (ims.take 2) last.eff.log ∧
      last.eff.hashes = storedHashes (s.hashPrimary, s.hashSecondary) (ims.take 2) ∧
      last.eff.InsideButVersion := by
  obtain ⟨pre, last, hrun, hpre, -, hyes, -⟩ := deliver_list z m hfits ps s
  refine ⟨pre, last, hrun, hpre, ?_⟩
  rw [hyes ha]
  refine ⟨⟨fun p => [.str (ascii "version"), .str (cString p.1.version)], ?_⟩,
    listRun_genuine_hashes h hne _, ?_⟩
  · rw [listRun_genuine h hne, foldl_imageEffect_log]
    rfl
  · rw [listRun_genuine h hne]
    refine foldl_insideButVersion (fun p hp => ?_) ?_
    · exact hshort _ (List.fst_mem_of_mem_zipIdx hp)
    · exact (insideButVersion_store _ _).2 ⟨List.forall_mem_nil _, .inl (by decide)⟩

/-! ### A list of two images -/

/-- The payload of a list of slot 0 and slot 1. -/
def twoImagesPayload : List UInt8 :=
  indefByte 5 :: ((putString 3 (ascii "images") ++ (indefByte 4 ::
    ((indefByte 5 :: (sampleBytes 0 7 ++ indefByte 7 ::
      (indefByte 5 :: (sampleBytes 1 9 ++ [indefByte 7])))) ++ [indefByte 7]))) ++ [indefByte 7])

theorem imageList_twoImagesPayload :
    ImageList [sampleEntry 0 7, sampleEntry 1 9] twoImagesPayload :=
  ⟨[], .mapIndef (n := 1) rfl (encodes_putString_text (by decide) (.arrayIndef
    (.mapIndef (n := 8) rfl (encodes_sampleBytes 0 7)
      (.mapIndef (n := 8) rfl (encodes_sampleBytes 1 9) .nil)) .nil)) .nil⟩

/-- The response with this payload. -/
def Response.twoImages : Response where
  bytes := frame 1 1 0 twoImagesPayload
  size := by decide +kernel

theorem fits_twoImages : Response.twoImages.Fits := by decide +kernel

theorem genuineImages_twoImages :
    GenuineImages [(sampleEntry 0 7).listed, (sampleEntry 1 9).listed]
      (payloadOf Response.twoImages.bytes) := by
  rw [Response.twoImages, payloadOf_frame]
  exact (genuineImages_listed [sampleEntry 0 7, sampleEntry 1 9] _).2 imageList_twoImagesPayload

/-- Both images of a list of two, over other hashes. -/
theorem smpListRspProc_genuine_twoImages :
    ∃ pre last, (Parts.single .twoImages).deliver (smpListRspProc documented .zero) .sevens =
        pre ++ [last] ∧
      CopyParts (fun _ => []) (Parts.single .twoImages).delivered .sevens pre ∧
      ShowsButVersion [(sampleEntry 0 7).listed, (sampleEntry 1 9).listed] last.eff.log ∧
      last.eff.hashes = storedHashes (Statics.sevens.hashPrimary, Statics.sevens.hashSecondary)
        [(sampleEntry 0 7).listed, (sampleEntry 1 9).listed] ∧
      last.eff.InsideButVersion :=
  smpListRspProc_genuine documented .zero fits_twoImages (by decide +kernel)
    (List.cons_ne_nil _ _) genuineImages_twoImages
    (fun im him => by
      simp only [List.take_succ_cons, List.take_zero, List.mem_cons, List.not_mem_nil,
        or_false] at him
      rcases him with rfl | rfl <;> exact ⟨by decide, by decide⟩)
    (Parts.single .twoImages) .sevens

/-! ### The commands behind a list -/

/-- What is stored for the secondary slot is the hash of the second image, or what was
stored before. -/
theorem storedHashes_second (hashes : List UInt8 × List UInt8) (ims : List ListedImage) :
    (storedHashes hashes (ims.take 2)).2 =
      (ims[1]?.map ListedImage.hash).elim hashes.2 (overwrite hashes.2) := by
  match ims with
  | [] => rfl
  | [_] => rfl
  | _ :: _ :: _ => rfl

/-- What is stored for the secondary slot behind a genuine list. -/
theorem listRun_secondary {ims : List ListedImage} {payload : List UInt8}
    (h : GenuineImages ims payload) (hne : ims ≠ []) (e : Effect) :
    (listRun payload e).hashSecondary =
      (ims[1]?.map ListedImage.hash).elim e.hashSecondary (overwrite e.hashSecondary) :=
  (congrArg Prod.snd (listRun_genuine_hashes h hne e)).trans (storedHashes_second e.hashes ims)

/-- **A list of two images** stores the hash of the second one for the secondary slot. -/
theorem listEffect_two (z : ZcborDecoder) {payload : List UInt8} {e₁ e₂ : ImageEntry}
    (h : ImageList [e₁, e₂] payload) (e : Effect) :
    (listEffect z payload e).hashSecondary = overwrite e.hashSecondary e₂.hash := by
  rw [listEffect_eq]
  exact listRun_secondary ((genuineImages_listed [e₁, e₂] _).2 h) (List.cons_ne_nil _ _) e

/-- **A frame behind a genuine list** names the hash of the second image, or what was
stored before. -/
theorem imageFrame_after_list (enc : ZcborEncoder) {ims : List ListedImage} {old new : List UInt8}
    (hsha : ∀ im ∈ ims, im.hash.length = 32) (hsize : old.length = 33)
    (hnew : new = (ims[1]?.map ListedImage.hash).elim old (overwrite old)) (confirm : Bool) :
    ∃ f, imageFrame enc new confirm = some f ∧
      readHash f = some ((ims[1]?.map ListedImage.hash).getD (old.take 32)) := by
  have hlength : new.length = 33 := by
    rw [hnew]
    cases ims[1]? with
    | none => exact hsize
    | some im => exact (length_overwrite _ _).trans hsize
  obtain ⟨f, hframe, hread⟩ := imageFrame_spec enc hlength confirm
  refine ⟨f, hframe, ?_⟩
  rw [hread, hnew]
  cases hsecond : ims[1]? with
  | none => rfl
  | some im =>
    have hlen := hsha im (List.mem_of_getElem? hsecond)
    have htake : (overwrite old im.hash).take im.hash.length = im.hash := take_overwrite (by omega)
    rw [hlen] at htake
    exact congrArg some htake

/-- **What test and confirm name behind a genuine list**: its second image, or what they
named before when there is none. -/
theorem commands_after_list (z : ZcborDecoder) (m : Memory) (enc : ZcborEncoder) {r : Response}
    (hfits : r.Fits) (ha : listCheck.Accepts r.bytes) {ims : List ListedImage} (hne : ims ≠ [])
    (h : GenuineImages ims (payloadOf r.bytes)) (hsha : ∀ im ∈ ims, im.hash.length = 32)
    (ps : Parts r) {s : Statics} (hsize : s.hashSecondary.length = 33) (confirm : Bool) :
    ∃ last f, (ps.deliver (smpListRspProc z m) s).getLast? = some last ∧
      imageFrame enc last.eff.hashSecondary confirm = some f ∧
      readHash f = some ((ims[1]?.map ListedImage.hash).getD (s.hashSecondary.take 32)) := by
  obtain ⟨pre, last, hrun, -, -, hyes, -⟩ := deliver_list z m hfits ps s
  have hstored : last.eff.hashSecondary = (ims[1]?.map ListedImage.hash).elim s.hashSecondary
      (overwrite s.hashSecondary) := by
    rw [hyes ha]
    exact listRun_secondary h hne _
  obtain ⟨f, hframe, hread⟩ := imageFrame_after_list enc hsha hsize hstored confirm
  exact ⟨last, f, by rw [hrun, List.getLast?_concat], hframe, hread⟩

/-- A list of two images, and then the test command: its frame names the second one, and
no longer what was stored before. -/
theorem commands_after_twoImages :
    ∃ last f, ((Parts.single .twoImages).deliver (smpListRspProc documented .zero) .sevens).getLast? =
        some last ∧ imageFrame documentedEncoder last.eff.hashSecondary false = some f ∧
      readHash f = some (List.replicate 32 9) :=
  commands_after_list documented .zero documentedEncoder fits_twoImages (by decide +kernel)
    (List.cons_ne_nil _ _) genuineImages_twoImages
    (fun im him => by
      simp only [List.mem_cons, List.not_mem_nil, or_false] at him
      rcases him with rfl | rfl <;> rfl)
    (Parts.single .twoImages) (s := .sevens) rfl false

end Smp
end NrfSamples
