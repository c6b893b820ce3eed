/-
# Which image a test or confirm frame names

`send_smp_test` and `send_smp_confirm` in
`bootloader_samples/client_smp/smp_client_ble/src/main.c` send
`hash_value_secondary_slot`, which `smp_list_rsp_proc` fills with the hash of the
second entry of a list.  They should name the image that the most recent response
lists for slot 1, and send nothing if it lists none (`NamesSlotOne`).

`namesSlotOne_of_meets`: they do, along every run in which each of these commands
is sent when the most recent response lists two images and the second one is that
of slot 1.  Otherwise the hash is stale: an entry for slot 1 that comes first or
alone is not stored, a list without one leaves the hash of an earlier list, and
before the first list the hash is zero.

What a copy writes past its array is left out of account here: the model does not say
where the bytes go that an image list writes behind a local array.
-/

import NrfSamples.Client.System
import NrfSamples.Smp.ListComplete

namespace NrfSamples
namespace Client

open Cbor Zcbor Smp Transition

/-- A frame, sent when `rsp` was the most recent response, names the image that
`rsp` gives for slot 1. -/
def NamesSlotOne : List UInt8 × Option (List UInt8) → Prop
  | (f, some rsp) => ∃ hash, slotOneHash (payloadOf rsp) = some hash ∧ readHash f = some hash
  | (_, none) => False

/-- Every test and confirm frame that was sent does. -/
def HashesRight (s : System) : Prop := ∀ x ∈ s.hashFrames, NamesSlotOne x

/-- A response that lists two images, the second of which is the one of slot 1,
with this hash. -/
def SecondIsSlotOne (rsp hash : List UInt8) : Prop :=
  ∃ (r : Response) (e₁ e₂ : ImageEntry), r.bytes = rsp ∧ r.Fits ∧ listCheck.Accepts rsp ∧
    ImageList [e₁, e₂] (payloadOf rsp) ∧ e₁.slot ≠ 1 ∧ e₂.slot = 1 ∧ hash = e₂.hash

/-- A test or confirm command that is sent follows such a response. -/
def SentAfterList (s : System) : Action → Prop
  | .pressTest ok | .pressConfirm ok => s.accepts ok = true →
      ∃ rsp hash, s.lastImages = some rsp ∧ SecondIsSlotOne rsp hash
  | _ => True

/-- What such runs keep: `hash_value_secondary_slot` agrees with the most recent
response, if that lists the image of slot 1 second; and `smp_rsp_buff` holds the
parts of a response that have arrived, as far as they fit. -/
structure HashInv (s : System) : Prop where
  frames : HashesRight s
  length : s.statics.hashSecondary.length = 33
  stored : ∀ rsp hash, s.lastImages = some rsp → SecondIsSlotOne rsp hash →
    s.statics.hashSecondary.take 32 = hash
  filled : ∀ p, s.pending = some p → p.got.length ≤ bufferSize →
    Filled p.got p.got.length s.statics.rsp

theorem HashInv.start : HashInv .start where
  frames := fun _ h => absurd h List.not_mem_nil
  length := by simp [System.start, Statics.zero]
  stored := fun _ _ h => by cases h
  filled := fun _ h => by cases h

/-- What a step does to the hashes: it leaves them alone, sends one, or passes on a
part of a response. -/
inductive HashChange (E : Setup) (s : System) : Action → System → Prop
  | quiet {a : Action} {t : System} : t.statics = s.statics → t.lastImages = s.lastImages →
      t.hashFrames = s.hashFrames →
      (t.pending = s.pending ∨ ∀ p, t.pending = some p → p.got = []) → HashChange E s a t
  | send {a : Action} {ok confirm : Bool} {f : List UInt8} :
      (a = .pressTest ok ∨ a = .pressConfirm ok) → s.accepts ok = true →
      imageFrame E.enc s.statics.hashSecondary confirm = some f →
      HashChange E s a { s with
        pending := some ⟨.image, []⟩, hashFrames := (f, s.lastImages) :: s.hashFrames }
  | receive {p : Pending} {data : List UInt8} : s.pending = some p →
      HashChange E s (.deliver data) (s.receive E p data)

/-- A new command has no response yet. -/
theorem got_of_fresh {k : CommandKind} (p : Pending) (h : some (⟨k, []⟩ : Pending) = some p) :
    p.got = [] := by
  rw [← Option.some.inj h]

/-- **Every step is one of these.** -/
theorem clientStep_hash (E : Setup) {s t : System} {a : Action}
    (h : clientStep E s a = some t) : HashChange E s a t := by
  cases clientStep_cases h with
  | hash ha hok hf => exact .send ha hok hf
  | deliver data hp => exact .receive hp
  | commandOk hw hok => exact .quiet rfl rfl rfl (.inr got_of_fresh)
  | list hok => exact .quiet rfl rfl rfl (.inr got_of_fresh)
  | disconnect => exact .quiet rfl rfl rfl (.inr fun _ h => by cases h)
  | _ => exact .quiet rfl rfl rfl (.inl rfl)

/-! ### One call of a handler -/

/-- The buffer after the next part, as far as everything fits. -/
theorem filled_part {p : Pending} {b : SmpBuffer}
    (h : p.got.length ≤ bufferSize → Filled p.got p.got.length b) (data : List UInt8)
    (hfits : (p.got ++ data).length ≤ bufferSize) :
    Filled (p.got ++ data) (p.got ++ data).length (receive (p.part data) b) := by
  rw [List.length_append] at hfits ⊢
  have hgot : Filled (p.got ++ data) (p.part data).offset b := by
    have := h (by omega)
    rw [Filled, List.take_length] at this
    exact this.trans (List.take_left' rfl).symm
  have hdrop : (p.got ++ data).drop (p.part data).offset = (p.part data).data ++ [] := by
    rw [List.append_nil]
    exact List.drop_left' rfl
  exact hgot.receive (show p.got.length + data.length ≤ bufferSize from hfits) hdrop

/-- The hash stored by the handler of an upload response. -/
theorem upload_hashSecondary (z : ZcborDecoder) (m : Memory) (p : RspPart) (s : Statics) :
    (smpUploadRspProc z m p s).eff.hashSecondary = s.hashSecondary :=
  rspProc_leaves _ _ _ _ m p s quiet_hashSecondary
    (uploadEffect_leaves quiet_hashSecondary (fun _ => rfl) z m)

/-- The hash stored by the handler of an image list keeps its size. -/
theorem list_hashSecondary_length (z : ZcborDecoder) (m : Memory) (p : RspPart) (s : Statics) :
    (smpListRspProc z m p s).eff.hashSecondary.length = s.hashSecondary.length :=
  congrArg Prod.snd (rspProc_leaves listCheck (fun _ => []) [] (listEffect z) m p s quiet_lengths
    (listEffect_lengths z))

/-- **The hash stored when a list of two images is complete.** -/
theorem list_hashSecondary (z : ZcborDecoder) (m : Memory) {p : RspPart} {s : Statics}
    {r : Response} (hfits : r.Fits) (hfilled : Filled r.bytes r.bytes.length (receive p s.rsp))
    (ht : p.totalCheck = true) (ha : listCheck.Accepts r.bytes) {e₁ e₂ : ImageEntry}
    (hlist : ImageList [e₁, e₂] (payloadOf r.bytes)) :
    (smpListRspProc z m p s).eff.hashSecondary = overwrite s.hashSecondary e₂.hash := by
  rw [smpListRspProc, rspProc_eff_of_accepts _ _ _ _ m p s ht
    ((listCheck.accepts_congr hfilled.header).2 ha), hfilled.window hfits, listEffect_two z hlist]
  rfl

/-- A call with an incomplete response keeps the hash. -/
theorem proc_hashSecondary (E : Setup) (kind : CommandKind) {p : RspPart}
    (hp : p.totalCheck = false) (s : Statics) :
    (kind.proc E p s).eff.hashSecondary = s.hashSecondary := by
  cases kind with
  | upload inv i => exact upload_hashSecondary E.dec E.mem p s
  | image => exact (rspProc_hashes listCheck (fun _ => []) [] (listEffect E.dec) E.mem s hp).2.1

theorem proc_rsp (E : Setup) (kind : CommandKind) (p : RspPart) (s : Statics) :
    (kind.proc E p s).rsp = Smp.receive p s.rsp := by
  cases kind with
  | upload inv i => exact rspProc_rsp uploadCheck (fun _ => []) [] _ E.mem p s
  | image => exact rspProc_rsp listCheck (fun _ => []) [] _ E.mem p s

/-- **A part of a response keeps the invariant.** -/
theorem HashInv.receive {E : Setup} {s : System} (h : HashInv s) {p : Pending}
    (hp : s.pending = some p) (data : List UInt8) : HashInv (s.receive E p data) := by
  obtain ⟨kind, got⟩ := p
  have hfilled := fun hfits => filled_part (h.filled _ hp) data hfits
  unfold System.receive
  by_cases ht : (Pending.part ⟨kind, got⟩ data).totalCheck = true
  · simp only [ht, if_true]
    cases kind with
    | upload inv i =>
      have hsame := upload_hashSecondary E.dec E.mem (Pending.part ⟨.upload inv i, got⟩ data)
        s.statics
      exact {
        frames := h.frames
        length := (congrArg List.length hsame).trans h.length
        stored := fun rsp hash hlast hsecond =>
        (congrArg (List.take 32) hsame).trans (h.stored rsp hash hlast hsecond)
        filled := fun _ hp => by cases hp }
    | image =>
      refine {
        frames := h.frames
        length := (list_hashSecondary_length E.dec E.mem _ s.statics).trans h.length
        stored := fun rsp hash hlast hsecond => ?_
        filled := fun _ hp => by cases hp }
      obtain rfl : got ++ data = rsp := Option.some.inj hlast
      obtain ⟨r, e₁, e₂, hr, hfits, ha, hlist, -, -, rfl⟩ := hsecond
      have hbuffer := hfilled (by rw [← hr]; exact hfits)
      rw [← hr] at hbuffer ha hlist
      have hstored := list_hashSecondary E.dec E.mem hfits hbuffer ht ha hlist
      have hlen : e₂.hash.length ≤ s.statics.hashSecondary.length := by
        rw [e₂.hash_length, h.length]
        norm_num
      have htake := take_overwrite hlen
      rw [e₂.hash_length, ← hstored] at htake
      exact htake
  · have hf : (Pending.part ⟨kind, got⟩ data).totalCheck = false := by simpa using ht
    have hsame := proc_hashSecondary E kind hf s.statics
    simp only [hf, Bool.false_eq_true, if_false]
    refine {
      frames := h.frames
      length := (congrArg List.length hsame).trans h.length
      stored := fun rsp hash hlast hsecond =>
        (congrArg (List.take 32) hsame).trans (h.stored rsp hash hlast hsecond)
      filled := fun q hq hfits => ?_ }
    obtain rfl := Option.some.inj hq
    rw [RspResult.statics, proc_rsp]
    exact hfilled hfits

/-- **A step keeps the invariant**, if a test or confirm command that it sends
follows a list with slot 1 second. -/
theorem HashInv.step {E : Setup} {s t : System} {a : Action} (h : HashInv s)
    (hok : SentAfterList s a) (ht : clientStep E s a = some t) : HashInv t := by
  cases clientStep_hash E ht with
  | quiet hstatics hlast hframes hpending =>
    refine ⟨by rw [HashesRight, hframes]; exact h.frames, by rw [hstatics]; exact h.length,
      by rw [hlast, hstatics]; exact h.stored, ?_⟩
    intro p hp hlen
    rw [hstatics]
    rcases hpending with hsame | hfresh
    · exact h.filled p (hsame ▸ hp) hlen
    · rw [hfresh p hp]
      exact filled_zero _ _
  | @send _ ok confirm f ha haccepts hframe =>
    have hlast : ∃ rsp hash, s.lastImages = some rsp ∧ SecondIsSlotOne rsp hash := by
      rcases ha with rfl | rfl
      · exact hok haccepts
      · exact hok haccepts
    obtain ⟨rsp, hash, hlast, hsecond⟩ := hlast
    refine ⟨?_, h.length, h.stored, fun p hp _ => by rw [got_of_fresh p hp]; exact filled_zero _ _⟩
    intro x hx
    rcases List.mem_cons.1 hx with rfl | hx
    · obtain ⟨f', hf', hread⟩ := imageFrame_spec E.enc h.length confirm
      obtain rfl := Option.some.inj (hframe.symm.trans hf')
      rw [hlast]
      have hstored := h.stored rsp hash hlast hsecond
      obtain ⟨r, e₁, e₂, rfl, -, -, hlist, h₁, h₂, rfl⟩ := hsecond
      exact ⟨e₂.hash, slotOneHash_of_two hlist h₁ h₂, by rw [hread, hstored]⟩
    · exact h.frames x hx
  | receive hp => exact h.receive hp _

/-- **Test and confirm name the image of slot 1**, in every run in which each of
them is sent when the most recent response lists two images, the second one that
of slot 1. -/
theorem namesSlotOne_of_meets (E : Setup) {as : List Action}
    (h : (client E).Meets SentAfterList .start as) : (client E).Always HashesRight .start as :=
  Machine.always_of_meets (fun _ hs => hs.frames) (fun _ _ _ hs hok ht => hs.step hok ht)
    HashInv.start h

/-- A test command before the first list: its frame names 32 zero bytes. -/
theorem not_hashesRight_before_list :
    ¬ (client sampleSetup).Always HashesRight .start [.connect, .pressTest true] := by
  intro h
  have hright := (h.2 _ rfl).2 _ rfl
  obtain ⟨f, hf, -⟩ := imageFrame_spec documentedEncoder HashInv.start.length false
  have hframe : sendSmpTest documentedEncoder System.start.statics.hashSecondary = some f := hf
  rw [show sendSmpTest sampleSetup.enc _ = some f from hframe] at hright
  exact hright (f, none) List.mem_cons_self

/-! ### A list of two images -/

theorem secondIsSlotOne_twoImages :
    SecondIsSlotOne Response.twoImages.bytes (List.replicate 32 9) :=
  ⟨.twoImages, _, _, rfl, fits_twoImages, ⟨List.mem_cons_self, rfl, rfl⟩,
    (genuineImages_listed [sampleEntry 0 7, sampleEntry 1 9] _).1 genuineImages_twoImages,
    show ((0 : ℕ) : ℤ) ≠ 1 by decide, rfl, rfl⟩

/-- A response in one part is complete. -/
theorem lastImages_deliver {E : Setup} {s t : System} {r : Response}
    (hp : s.pending = some ⟨.image, []⟩) (h : (client E).step s (.deliver r.bytes) = some t) :
    t.lastImages = some r.bytes := by
  have hwhole : (Pending.part ⟨.image, []⟩ r.bytes).totalCheck = true := by
    rw [Pending.part, List.nil_append, ← r.size]
    exact decide_eq_true (Nat.le_add_left _ _)
  simp only [client, clientStep, hp] at h
  split_ifs at h
  obtain rfl := Option.some.inj h
  simp only [System.receive, hwhole, if_true]
  rfl

/-- The list and then the test command, along a run that meets the condition. -/
theorem namesSlotOne_sample_list : (client sampleSetup).Always HashesRight .start
    [.connect, .pressList true, .deliver Response.twoImages.bytes, .pressTest true] := by
  refine namesSlotOne_of_meets sampleSetup fun s₁ h₁ => ⟨trivial, ?_⟩
  obtain rfl := Option.some.inj h₁
  refine fun s₂ h₂ => ⟨trivial, ?_⟩
  obtain rfl := Option.some.inj h₂
  refine fun s₃ h₃ => ⟨trivial, fun s₄ _ => ⟨fun _ => ?_, trivial⟩⟩
  exact ⟨_, _, lastImages_deliver (r := .twoImages) rfl h₃, secondIsSlotOne_twoImages⟩

end Client
end NrfSamples
