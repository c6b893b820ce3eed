/-
# Upload, list and test

What the buttons of `bootloader_samples/client_smp/smp_client_ble/src/main.c` are
for: upload the secondary slot, ask for the image list, and have the new image
tested.  The server names its images by their hashes, the client by the bytes it
has stored of the last list.

`tested_is_uploaded`: in every run of the client after which the server has accepted
the last chunk, and an idle client asks for the list, a list whose second image has
the hash of what the server holds in the slot, in whatever parts it arrives, makes the
test command name the hash of the slot that was sent; so the image that gets tested is
the one that was uploaded, if what the server had kept agrees with it.
-/

import NrfSamples.Client.Delivery
import NrfSamples.Client.ImageHash
import NrfSamples.Smp.ListComplete

namespace NrfSamples
namespace Client

open Cbor Zcbor Smp Transition

/-! ### A list in parts -/

section Parts

variable {E : Setup} {s : System} {r : Response} {got d : List UInt8}

/-- The response is complete with its last byte. -/
theorem totalCheck_part (kind : CommandKind) (rest : List UInt8) (hr : got ++ d ++ rest = r.bytes)
    (hheader : headerSize ≤ (got ++ d).length) :
    (Pending.part ⟨kind, got⟩ d).totalCheck = rest.isEmpty := by
  have hlen : hdrLen (got ++ d) = hdrLen r.bytes :=
    hdrLen_congr (by rw [← hr, List.take_append_of_le_length hheader])
  have hsize := congrArg List.length hr
  rw [r.size, List.length_append, List.length_append] at hsize
  rw [RspPart.totalCheck, Pending.part, hlen]
  cases rest with
  | nil => simpa using hsize.ge
  | cons b rest =>
    rw [List.length_cons] at hsize
    simp only [List.isEmpty_cons, decide_eq_false_iff_not]
    omega

/-- A client that awaits the rest of the list, with what has arrived in the buffer. -/
structure Awaits (s : System) (got : List UInt8) : Prop where
  pending : s.pending = some ⟨.image, got⟩
  filled : Filled got got.length s.statics.rsp

/-- A part of a response changes neither of these. -/
structure Kept (s t : System) : Prop where
  connected : t.connected = s.connected
  hashFrames : t.hashFrames = s.hashFrames

theorem kept_receive (s : System) (p : Pending) (d : List UInt8) : Kept s (s.receive E p d) := by
  unfold System.receive
  dsimp only
  split_ifs
  · cases p.kind <;> exact ⟨rfl, rfl⟩
  · exact ⟨rfl, rfl⟩

/-- A part of the list with more to come. -/
theorem Awaits.more (h : Awaits s got) (rest : List UInt8) (hr : got ++ d ++ rest = r.bytes)
    (hheader : headerSize ≤ (got ++ d).length) (hmore : rest ≠ []) (hfits : r.Fits) :
    ∃ t, clientStep E s (.deliver d) = some t ∧ Awaits t (got ++ d) ∧ Kept s t ∧
      t.statics.hashSecondary = s.statics.hashSecondary := by
  have ht : (Pending.part ⟨.image, got⟩ d).totalCheck = false := by
    rw [totalCheck_part .image rest hr hheader]
    simpa using hmore
  have hstep : clientStep E s (.deliver d) = some (s.receive E ⟨.image, got⟩ d) := by
    simp only [clientStep, h.pending]
    exact if_neg fun hno => by
      rw [hno.1, List.nil_append] at hheader
      omega
  have hle : (got ++ d).length ≤ bufferSize := by
    have hsize := congrArg List.length hr
    rw [List.length_append] at hsize
    have : r.bytes.length ≤ bufferSize := hfits
    omega
  have hbuffer := filled_part (p := ⟨.image, got⟩) (fun _ => h.filled) d hle
  have hsame := proc_hashSecondary E .image ht s.statics
  refine ⟨_, hstep, ⟨?_, ?_⟩, kept_receive s _ d, ?_⟩
  · simp only [System.receive, ht, Bool.false_eq_true, if_false]
  · simp only [System.receive, ht, Bool.false_eq_true, if_false]
    rw [RspResult.statics, proc_rsp]
    exact hbuffer
  · simp only [System.receive, ht, Bool.false_eq_true, if_false]
    exact hsame

/-- The last part of a genuine list. -/
theorem Awaits.last (h : Awaits s got) (hr : got ++ d = r.bytes)
    (hheader : headerSize ≤ (got ++ d).length) (hfits : r.Fits) (ha : listCheck.Accepts r.bytes)
    {ims : List ListedImage} (hne : ims ≠ []) (hlist : GenuineImages ims (payloadOf r.bytes)) :
    ∃ t, clientStep E s (.deliver d) = some t ∧ t.pending = none ∧ Kept s t ∧
      t.lastImages = some r.bytes ∧
      t.statics.hashSecondary = (ims[1]?.map ListedImage.hash).elim s.statics.hashSecondary
        (overwrite s.statics.hashSecondary) := by
  have ht : (Pending.part ⟨.image, got⟩ d).totalCheck = true :=
    totalCheck_part .image [] (by rw [List.append_nil]; exact hr) hheader
  have hstep : clientStep E s (.deliver d) = some (s.receive E ⟨.image, got⟩ d) := by
    simp only [clientStep, h.pending]
    exact if_neg fun hno => by
      rw [hno.1, List.nil_append] at hheader
      omega
  have hbuffer : Filled r.bytes r.bytes.length
      (receive (Pending.part ⟨.image, got⟩ d) s.statics.rsp) := by
    rw [← hr]
    exact filled_part (p := ⟨.image, got⟩) (fun _ => h.filled) d (by rw [hr]; exact hfits)
  have hstored : (CommandKind.image.proc E (Pending.part ⟨.image, got⟩ d)
      s.statics).eff.hashSecondary = (ims[1]?.map ListedImage.hash).elim s.statics.hashSecondary
        (overwrite s.statics.hashSecondary) := by
    have haccepts := (listCheck.accepts_congr hbuffer.header).2 ha
    rw [CommandKind.proc, smpListRspProc, rspProc_eff_of_accepts _ _ _ _ E.mem _ s.statics ht
      haccepts, hbuffer.window hfits, listEffect_eq]
    exact listRun_secondary hlist hne _
  refine ⟨_, hstep, ?_, kept_receive s _ d, ?_, ?_⟩
  · simp only [System.receive, ht, if_true, System.complete]
  · simp only [System.receive, ht, if_true, System.complete, hr]
  · simp only [System.receive, ht, if_true, System.complete]
    exact hstored

end Parts

/-- **A genuine list, in whatever parts.**  Induction on the parts that are left; only
the last one is decoded. -/
theorem Awaits.deliver {E : Setup} {s : System} {r : Response} {got d : List UInt8}
    (ds : List (List UInt8)) (h : Awaits s got) (hr : got ++ d ++ ds.flatten = r.bytes)
    (hheader : headerSize ≤ (got ++ d).length) (hparts : [] ∉ ds) (hfits : r.Fits)
    (ha : listCheck.Accepts r.bytes) {ims : List ListedImage} (hne : ims ≠ [])
    (hlist : GenuineImages ims (payloadOf r.bytes)) :
    ∃ t, (client E).after s ((d :: ds).map .deliver) = some t ∧ t.pending = none ∧
      Kept s t ∧ t.lastImages = some r.bytes ∧
      t.statics.hashSecondary = (ims[1]?.map ListedImage.hash).elim s.statics.hashSecondary
        (overwrite s.statics.hashSecondary) := by
  induction ds generalizing s got d with
  | nil =>
    rw [List.flatten_nil, List.append_nil] at hr
    obtain ⟨t, ht, hend⟩ := h.last hr hheader hfits ha hne hlist
    exact ⟨t, Option.bind_eq_some_iff.2 ⟨t, ht, rfl⟩, hend⟩
  | cons d' ds ih =>
    have hd' : d' ≠ [] := fun hnil => hparts (hnil ▸ List.mem_cons_self)
    obtain ⟨u, hu, hawaits, hkept, hsame⟩ := h.more (E := E) _ hr hheader (by simp [hd']) hfits
    obtain ⟨t, ht, hpending, hkept', hlast, hstored⟩ := ih hawaits
      (by rw [← hr, List.flatten_cons, List.append_assoc (got ++ d)])
      (hheader.trans (List.prefix_append (got ++ d) d').length_le)
      (fun hmem => hparts (List.mem_cons_of_mem _ hmem))
    exact ⟨t, Option.bind_eq_some_iff.2 ⟨u, hu, ht⟩, hpending,
      ⟨hkept'.connected.trans hkept.connected, hkept'.hashFrames.trans hkept.hashFrames⟩, hlast,
      by rw [hstored, hsame]⟩

/-! ### The commands -/

/-- The array for the hash keeps its size. -/
theorem hashSecondary_length (E : Setup) {as : List Action} {s : System}
    (hs : (client E).after .start as = some s) : s.statics.hashSecondary.length = 33 := by
  refine Machine.after_of_step (M := client E)
    (fun u a t (hu : u.statics.hashSecondary.length = 33) ht => ?_) (by decide) hs
  cases clientStep_hash E ht with
  | quiet hstatics => rw [hstatics, hu]
  | send => exact hu
  | @receive p data =>
    have hsize : (p.kind.proc E (p.part data) u.statics).eff.hashSecondary.length = 33 := by
      obtain ⟨kind, got⟩ := p
      cases kind with
      | upload inv i =>
        exact (congrArg List.length (upload_hashSecondary E.dec E.mem _ u.statics)).trans hu
      | image => exact (list_hashSecondary_length E.dec E.mem _ u.statics).trans hu
    rw [← hsize]
    simp only [System.receive]
    split_ifs
    · cases p.kind <;> rfl
    · rfl

/-- Asking for the list, its parts, and asking to test. -/
def listAndTest {r : Response} (ps : Parts r) : List Action :=
  .pressList true :: ((ps.first :: ps.others).map .deliver ++ [.pressTest true])

/-- **What gets tested behind a genuine list**, wherever the client is when it can send a
command. -/
theorem tested_after_list (E : Setup) {as : List Action} {s : System}
    (hs : (client E).after .start as = some s) (hconn : s.connected = true)
    (hidle : s.pending = none) {r : Response} (hfits : r.Fits) (ha : listCheck.Accepts r.bytes)
    {ims : List ListedImage} (hne : ims ≠ []) (hlist : GenuineImages ims (payloadOf r.bytes))
    (hsha : ∀ im ∈ ims, im.hash.length = 32) (ps : Parts r) (hparts : [] ∉ ps.others) :
    ∃ t f, (client E).after s (listAndTest ps) = some t ∧
      t.hashFrames = (f, some r.bytes) :: s.hashFrames ∧
      readHash f =
        some ((ims[1]?.map ListedImage.hash).getD (s.statics.hashSecondary.take 32)) := by
  have hsent : clientStep E s (.pressList true) =
      some { s with pending := some ⟨.image, []⟩ } := by
    simp [clientStep, System.accepts, hconn, hidle]
  have hawaits : Awaits { s with pending := some ⟨.image, []⟩ } [] := ⟨rfl, filled_zero _ _⟩
  obtain ⟨t, ht, hpending, hkept, hlast, hstored⟩ := hawaits.deliver (E := E) ps.others
    (by rw [List.nil_append]; exact ps.whole) ps.header hparts hfits ha hne hlist
  obtain ⟨f, hframe, hread⟩ :=
    imageFrame_after_list E.enc hsha (hashSecondary_length E hs) hstored false
  have htest : clientStep E t (.pressTest true) = some { t with
      pending := some ⟨.image, []⟩, hashFrames := (f, t.lastImages) :: t.hashFrames } := by
    have haccepts : t.accepts true = true := by
      simp [System.accepts, hkept.connected, hconn, hpending]
    rw [clientStep, sendSmpTest, hframe]
    simp only [System.sendHash, haccepts, if_true]
  have hframes : (f, t.lastImages) :: t.hashFrames = (f, some r.bytes) :: s.hashFrames := by
    rw [hlast, hkept.hashFrames]
  refine ⟨{ t with pending := some ⟨.image, []⟩, hashFrames := (f, t.lastImages) :: t.hashFrames },
    f, ?_, hframes, hread⟩
  rw [listAndTest, Machine.after, show (client E).step s (.pressList true) = _ from hsent,
    Option.bind_some, Machine.after_append, ht, Option.bind_some]
  exact Option.bind_eq_some_iff.2 ⟨_, htest, rfl⟩

/-- **The image that gets tested is the one that was uploaded**, for every run behind which
the server has been sent the last chunk, and every function that it names images by. -/
theorem tested_is_uploaded (E : Setup) (hash : List UInt8 → List UInt8) (u : Option Unfinished)
    (hkept : KeptAgrees E.slot E.flash (keptBytes u)) {as : List Action} {s : System}
    (hs : (client E).after .start as = some s) (hconn : s.connected = true)
    (hidle : s.pending = none)
    (hlast : chunksSent ((client E).history sendEvents .start as) =
      E.slot.size / chunkSize + 1)
    {r : Response} (hfits : r.Fits) (ha : listCheck.Accepts r.bytes) {im im' : ListedImage}
    {ims : List ListedImage} (hlist : GenuineImages (im :: im' :: ims) (payloadOf r.bytes))
    (hsha : ∀ x ∈ im :: im' :: ims, x.hash.length = 32)
    (hnames : im'.hash = hash ((serverAfter u
      ((client E).history sendEvents .start as)).bytes.take E.slot.size))
    (ps : Parts r) (hparts : [] ∉ ps.others) :
    ∃ t f, (client E).after .start (as ++ listAndTest ps) = some t ∧
      t.hashFrames = (f, some r.bytes) :: s.hashFrames ∧
      readHash f = some (hash (E.slot.contents E.flash)) := by
  obtain ⟨t, f, ht, hframes, hread⟩ := tested_after_list E hs hconn hidle hfits ha
    (List.cons_ne_nil _ _) hlist hsha ps hparts
  have hdelivered := delivered_run E u as
  rw [hlast] at hdelivered
  refine ⟨t, f, by rw [Machine.after_append, hs]; exact ht, hframes, ?_⟩
  rw [hread, ← hdelivered.eq_contents_iff.2 hkept, ← hnames]
  rfl

/-- The upload of a slot of ten bytes, up to the response to its one chunk. -/
def uploadDone : List Action :=
  [.connect, .pressUpload, .startWork (Vector.replicate (chunkSize + 1) 0), .semTake,
    .flashRead true, .encode true, .command true, .deliver Response.ok.bytes]

/-- The list then has the hash for slot 1 that the server computes. -/
theorem tested_is_uploaded_tenBytes :
    ∃ s t f, (client sampleSetup).after .start uploadDone = some s ∧
      (client sampleSetup).after .start
        (uploadDone ++ listAndTest (Parts.single .twoImages)) = some t ∧
      t.hashFrames = (f, some Response.twoImages.bytes) :: s.hashFrames ∧
      readHash f = some (List.replicate 32 9) := by
  have hrun : ((client sampleSetup).after .start uploadDone).isSome = true := by decide +kernel
  obtain ⟨s, hs⟩ := Option.isSome_iff_exists.1 hrun
  have hlast := Machine.last_of_after hs
  have hready : ((client sampleSetup).last .start uploadDone).accepts true = true := by
    decide +kernel
  rw [hlast, System.accepts, Bool.and_eq_true, Bool.and_eq_true, Option.isNone_iff_eq_none]
    at hready
  obtain ⟨t, f, h⟩ := tested_is_uploaded sampleSetup (fun _ => List.replicate 32 9) none
    ⟨.inl (Dvd.intro_left 0 rfl), by simp [keptBytes]⟩ hs hready.1.2 hready.2
    (by decide +kernel) fits_twoImages ⟨List.mem_cons_self, rfl, rfl⟩ genuineImages_twoImages
    (fun x hx => by
      rcases List.mem_pair.1 hx with rfl | rfl
      · exact (sampleEntry 0 7).hash_length
      · exact (sampleEntry 1 9).hash_length)
    rfl (Parts.single .twoImages) List.not_mem_nil
  exact ⟨s, t, f, hs, h⟩

end Client
end NrfSamples
