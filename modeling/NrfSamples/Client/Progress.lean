/-
# When an upload can go on

The token of `upload_sem` decides.  Once it is lost, no chunk is ever handed over
again, whatever the buttons, the server and the link do: nothing in
`bootloader_samples/client_smp/smp_client_ble/src/main.c` gives the semaphore but
the response to an upload (`handedOver_eq_nil_of_loses`).

While it is there, the upload that is under way can be completed from wherever it
is, in a number of steps that `System.toGo` bounds, and then the server has the slot
(`upload_completes`): the answer that is awaited gives the semaphore, a pending
command of another button goes away with a disconnect, and the rest is the loop.
The answer may have arrived in part, as long as that part is the beginning of one
that gives the semaphore.
-/

import NrfSamples.Client.Delivery
import NrfSamples.Client.Responses
import NrfSamples.Client.Traffic

namespace NrfSamples
namespace Client

open Cbor Zcbor Smp Transition

/-! ### Without the token -/

/-- Only an invocation that holds the token hands over a chunk. -/
theorem handedOver_sendEvents {s : System} (h : ¬ s.Holding) (a : Action) :
    handedOver (sendEvents s a) = [] := by
  cases a with
  | command ok =>
    unfold sendEvents
    dsimp only
    split
    · rename_i hw
      exact absurd ⟨_, hw, nofun⟩ h
    · rfl
  | _ => rfl

theorem not_holding_of_live {s : System} (h : s.flow.live = 0) : ¬ s.Holding := by
  intro hold
  rw [s.live_eq, System.held_eq_one hold] at h
  omega

theorem live_le_one (E : Setup) {as : List Action} {s : System}
    (hs : (client E).after .start as = some s) : s.flow.live ≤ 1 := by
  have h := current_or_lost E as
  rw [Machine.last_of_after hs] at h
  rcases h with h | h
  · exact h.live.le
  · exact h.live.le.trans (Nat.zero_le 1)

/-- **After the token is lost no chunk is handed over.**  For every way to lose it,
and whatever follows. -/
theorem handedOver_eq_nil_of_loses (E : Setup) {as : List Action} {s t : System} {a : Action}
    (hs : (client E).after .start as = some s) (hloses : Loses E s a)
    (ht : clientStep E s a = some t) (bs : List Action) :
    handedOver ((client E).history sendEvents t bs) = [] := by
  have hlive : t.flow.live = 0 := ((clientStep_flow E ht).1 hloses).live_zero (live_le_one E hs)
  have hrun : t.flow.live = 0 ∧ handedOver [] = [] := ⟨hlive, rfl⟩
  have h := Machine.history_of_step (M := client E) sendEvents
    (R := fun h s => s.flow.live = 0 ∧ handedOver h = []) ?_ hrun bs
  · rw [List.nil_append] at h
    exact h.2
  · rintro h s a t ⟨hzero, hnone⟩ ht
    refine ⟨live_zero_step hzero ht, ?_⟩
    rw [handedOver, List.filter_append]
    change handedOver h ++ handedOver (sendEvents s a) = []
    rw [hnone, handedOver_sendEvents (not_holding_of_live hzero)]
    rfl

/-- A read of the flash that fails, and then the button again. -/
theorem handedOver_after_flashRead :
    handedOver ((client sampleSetup).history sendEvents
      ⟨.zero, 0, false, none, true, none, 1, none, [], []⟩
      [.pressUpload, .startWork (Vector.replicate (chunkSize + 1) 0), .semTake, .flashRead true,
        .encode true, .command true]) = [] :=
  @handedOver_eq_nil_of_loses sampleSetup
    [.connect, .pressUpload, .startWork (Vector.replicate (chunkSize + 1) 0), .semTake] _ _
    (.flashRead false) rfl rfl rfl _

/-! ### With the token -/

/-- What has arrived of an upload response is the beginning of one that gives the
semaphore. -/
def Answerable (E : Setup) (s : System) : Prop :=
  ∀ inv i got, s.pending = some ⟨.upload inv i, got⟩ →
    ∃ r : Response, r.Fits ∧ uploadCheck.Accepts r.bytes ∧
      UploadForm E.mem (payloadOf r.bytes) ∧ got <+: r.bytes

/-- An upload that can be completed. -/
structure Completable (E : Setup) (s : System) : Prop where
  current : ∃ h, Current E h s
  buffered : Buffered s
  answerable : Answerable E s

/-- Any step that keeps the token, as far as the answer is concerned. -/
theorem Completable.step {E : Setup} {s t : System} {a : Action} (hs : Completable E s)
    (ht : clientStep E s a = some t) (hkeeps : ¬ Loses E s a) (hanswer : Answerable E t) :
    Completable E t := by
  obtain ⟨h, hcurrent⟩ := hs.current
  have hlive : t.flow.live = 1 :=
    (((clientStep_flow E ht).2 hkeeps).live_eq hcurrent.live.le).trans hcurrent.live
  refine ⟨?_, hs.buffered.step ht, hanswer⟩
  rcases hcurrent.step ht with hnext | hlost
  · exact ⟨_, hnext⟩
  · rw [hlost.live] at hlive
    cases hlive

/-- How many steps an upload still takes, at most. -/
def System.toGo (E : Setup) (s : System) : ℕ :=
  match s.worker with
  | none => 0
  | some w =>
      8 * (E.slot.size / chunkSize - w.chunk) +
        match w.pc with
        | .semTake => if s.uploadSem = 0 then 8 else 7
        | .flashRead => 6
        | .encode => 5
        | .command _ =>
            if s.pending.isSome then (if s.connected then 3 else 4)
            else (if s.connected then 1 else 2)

/-- **The answer arrives.**  The rest of the response that is awaited, in one
part. -/
theorem Completable.answer {E : Setup} {s : System} (hs : Completable E s) {inv i : ℕ}
    {got : List UInt8} (hp : s.pending = some ⟨.upload inv i, got⟩) :
    ∃ data, ¬ Loses E s (.deliver data) ∧
      clientStep E s (.deliver data) = some (s.receive E ⟨.upload inv i, got⟩ data) ∧
      (s.receive E ⟨.upload inv i, got⟩ data).pending = none := by
  obtain ⟨r, hfits, haccepts, hform, data, hdata⟩ := hs.answerable inv i got hp
  have hsize := r.size
  have hle : (got ++ data).length ≤ bufferSize := by rw [hdata]; exact hfits
  have hwhole : (Pending.part ⟨.upload inv i, got⟩ data).totalCheck = true := by
    rw [Pending.part, hdata, ← r.size, ← hdata, List.length_append]
    exact decide_eq_true le_rfl
  have hfilled : Filled r.bytes r.bytes.length
      (receive (Pending.part ⟨.upload inv i, got⟩ data) s.statics.rsp) := by
    rw [← hdata]
    exact filled_part (hs.buffered _ hp) data hle
  refine ⟨data, ?_, ?_, ?_⟩
  · rintro ⟨q, inv', i', hq, -, -, hno⟩
    obtain rfl := Option.some.inj (hp.symm.trans hq)
    exact hno ⟨(uploadCheck.accepts_congr hfilled.header).2 haccepts, by
      rw [hfilled.window hfits]
      exact hform⟩
  · simp only [clientStep, hp]
    rw [if_neg]
    rintro ⟨rfl, hshort⟩
    rw [List.nil_append] at hdata
    rw [hdata] at hshort
    omega
  · simp only [System.receive, hwhole, if_true]
    rfl

/-- The response with the payload `{_ k: 0, "off": 0}`, where the key `k` is these two
bytes. -/
def keyedResponse (k₀ k₁ : UInt8) : Response where
  bytes := [3, 0, 0, 11, 0, 1, 0, 1] ++
    [0xBF, 0x62, k₀, k₁, 0, 0x63, 0x6F, 0x66, 0x66, 0, 0xFF]
  size := rfl

/-- It gives the semaphore unless its key is what is stored at the address `'rc'`. -/
theorem uploadForm_keyedResponse {m : Memory} {k₀ k₁ : UInt8} (hrc : m.eqRc [k₀, k₁] = false) :
    UploadForm m (payloadOf (keyedResponse k₀ k₁).bytes) := by
  have hitems : Encodes [.text [k₀, k₁], .uint 0, .text (ascii "off"), .uint 0]
      (head 3 .inHead 2 ++ ([k₀, k₁] ++ (head 0 .inHead 0 ++
        (head 3 .inHead 3 ++ (ascii "off" ++ (head 0 .inHead 0 ++ [])))))) :=
    .text (show 2 < 24 by decide) (.uint (by decide) (.text (by decide) (.uint (by decide) .nil)))
  exact ⟨none, _, _, 0, [0xFF], ⟨_, _, rfl, hitems, rfl⟩, nofun, rfl, hrc, rfl, by decide⟩

/-- A response that has not begun can be answered, whatever is stored at the address
`'rc'`. -/
theorem exists_answer (E : Setup) :
    ∃ r : Response, r.Fits ∧ uploadCheck.Accepts r.bytes ∧
      UploadForm E.mem (payloadOf r.bytes) ∧ [] <+: r.bytes := by
  have hkey : ∃ k₀ k₁, E.mem.eqRc [k₀, k₁] = false := by
    refine ⟨E.mem.atRc 0 + 1, 0, ?_⟩
    have hne : (E.mem.atRc 0 + 1 == E.mem.atRc 0) = false := by simp
    simp only [Memory.eqRc, strncmpEq, List.getD_cons_zero, hne, Bool.false_and]
  obtain ⟨k₀, k₁, hrc⟩ := hkey
  exact ⟨keyedResponse k₀ k₁, Nat.le_of_ble_eq_true rfl, ⟨List.mem_singleton.2 rfl, rfl, rfl⟩,
    uploadForm_keyedResponse hrc, List.nil_prefix⟩

/-- Where the token is, seen from the semaphore. -/
theorem Completable.waiting {E : Setup} {s : System} (hs : Completable E s) {w : Worker}
    (hw : s.worker = some w) (hpc : w.pc = .semTake) (hsem : s.uploadSem = 0) :
    ∃ inv i got, s.pending = some ⟨.upload inv i, got⟩ := by
  obtain ⟨h, hcurrent⟩ := hs.current
  have hfree : ¬ s.Holding := by
    rintro ⟨w', hw', hpc'⟩
    obtain rfl := Option.some.inj (hw.symm.trans hw')
    exact hpc' hpc
  have hlive := hcurrent.live
  rw [s.live_eq, hsem, System.held_eq_zero hfree, System.uploadsPending] at hlive
  split at hlive
  · rename_i inv i got hp
    exact ⟨inv, i, got, hp⟩
  · omega

/-- An invocation that holds the token awaits no answer. -/
theorem Completable.holding {E : Setup} {s : System} (hs : Completable E s) (hold : s.Holding)
    {inv i : ℕ} {got : List UInt8} : s.pending ≠ some ⟨.upload inv i, got⟩ := by
  obtain ⟨h, hcurrent⟩ := hs.current
  intro hp
  have hlive := hcurrent.live
  rw [s.live_eq, System.held_eq_one hold, System.uploadsPending, hp] at hlive
  dsimp only at hlive
  omega

/-- The encoding of a round succeeds. -/
theorem Completable.encodes {E : Setup} {s : System} (hs : Completable E s) {inv i : ℕ}
    {u : Locals} (hw : s.worker = some ⟨inv, i, u, .encode⟩) :
    ∃ f, uploadFrame E.enc E.slot u = some f := by
  obtain ⟨h, hcurrent⟩ := hs.current
  obtain ⟨whole, data, sent, rest, v, -, -, -, hfollows⟩ := hcurrent.busy _ hw
  obtain rfl : u = _ := hfollows.stage
  obtain ⟨f, hf, -⟩ := uploadFrame_spec E.enc E.slot _ (hfollows.atChunk.readChunk E.flash).1
  exact ⟨f, hf⟩

/-- The chunks are those of the slot. -/
theorem Completable.chunk_le {E : Setup} {s : System} (hs : Completable E s) {w : Worker}
    (hw : s.worker = some w) : w.chunk ≤ E.slot.size / chunkSize := by
  obtain ⟨h, hcurrent⟩ := hs.current
  obtain ⟨whole, data, sent, rest, v, -, -, -, hfollows⟩ := hcurrent.busy _ hw
  rw [hfollows.chunk, Nat.le_div_iff_mul_le (by decide), Nat.mul_comm]
  exact hfollows.atChunk.le

section Next

variable {E : Setup} {s : System} (hs : Completable E s) {inv i : ℕ} {v : Locals}

include hs

/-- At the semaphore: it is taken, after the answer if that is awaited. -/
theorem Completable.next_semTake (hw : s.worker = some ⟨inv, i, v, .semTake⟩) :
    ∃ a t, clientStep E s a = some t ∧ Completable E t ∧ t.toGo E < s.toGo E := by
  rcases Nat.eq_zero_or_pos s.uploadSem with hsem | hsem
  · obtain ⟨inv', i', got, hp⟩ := hs.waiting hw rfl hsem
    obtain ⟨data, hkeeps, ht, hnone⟩ := hs.answer hp
    have hnext := hs.step ht hkeeps fun _ _ _ hp => by rw [hnone] at hp; cases hp
    have hw' := (receive_uploads E s ⟨.upload inv' i', got⟩ data).1.trans hw
    have hgiven : (s.receive E ⟨.upload inv' i', got⟩ data).uploadSem ≠ 0 := by
      intro hzero
      obtain ⟨_, _, _, hp'⟩ := hnext.waiting hw' rfl hzero
      rw [hnone] at hp'
      cases hp'
    refine ⟨_, _, ht, hnext, ?_⟩
    simp only [System.toGo, hw', hw, hsem, hgiven, if_true, if_false]
    omega
  · obtain ⟨n, hn⟩ := Nat.exists_eq_succ_of_ne_zero hsem.ne'
    have ht : clientStep E s .semTake = some { s with
        uploadSem := n, worker := some ⟨inv, i, chooseChunk E.slot v, .flashRead⟩ } := by
      simp only [clientStep, hw, hn]
    refine ⟨_, _, ht, hs.step ht id hs.answerable, ?_⟩
    simp only [System.toGo, hw, hsem.ne', if_false]
    omega

/-- At the read and the encoding. -/
theorem Completable.next_flashRead (hw : s.worker = some ⟨inv, i, v, .flashRead⟩) :
    ∃ a t, clientStep E s a = some t ∧ Completable E t ∧ t.toGo E < s.toGo E := by
  have ht : clientStep E s (.flashRead true) = some { s with
      worker := some ⟨inv, i, readChunk E.flash v, .encode⟩ } := by
    simp only [clientStep, hw, if_true]
  refine ⟨_, _, ht, hs.step ht Bool.noConfusion hs.answerable, ?_⟩
  simp only [System.toGo, hw]
  omega

theorem Completable.next_encode (hw : s.worker = some ⟨inv, i, v, .encode⟩) :
    ∃ a t, clientStep E s a = some t ∧ Completable E t ∧ t.toGo E < s.toGo E := by
  obtain ⟨f, hf⟩ := hs.encodes hw
  have ht : clientStep E s (.encode true) = some { s with
      worker := some ⟨inv, i, advance v, .command f⟩ } := by
    simp only [clientStep, hw, hf]
  refine ⟨_, _, ht, hs.step ht (not_loses_encode hw hf) hs.answerable, ?_⟩
  simp only [System.toGo, hw]
  split_ifs <;> omega

/-- At the command, while another one is pending or no peer is connected. -/
theorem Completable.next_refused {f : List UInt8} (hw : s.worker = some ⟨inv, i, v, .command f⟩)
    (hno : s.accepts true = false) :
    ∃ a t, clientStep E s a = some t ∧ Completable E t ∧ t.toGo E < s.toGo E := by
  have hold : s.Holding := ⟨_, hw, nofun⟩
  cases hc : s.connected with
  | false =>
    have ht : clientStep E s .connect = some { s with connected := true } := by
      simp only [clientStep, hc, Bool.false_eq_true, if_false]
    refine ⟨_, _, ht, hs.step ht id hs.answerable, ?_⟩
    cases hp : s.pending <;> simp [System.toGo, hw, hc, hp]
  | true =>
    have ht : clientStep E s .disconnect = some { s with connected := false, pending := none } := by
      simp only [clientStep, hc, if_true]
    have hkeeps : ¬ Loses E s .disconnect := by
      rintro ⟨⟨kind, got⟩, inv', i', hp, rfl⟩
      exact hs.holding hold hp
    refine ⟨_, _, ht, hs.step ht hkeeps (fun _ _ _ hp => by cases hp), ?_⟩
    cases hp : s.pending with
    | none => simp [System.accepts, hc, hp] at hno
    | some p => simp [System.toGo, hw, hc, hp]

/-- At the command, if it is accepted. -/
theorem Completable.next_command {f : List UInt8} (hw : s.worker = some ⟨inv, i, v, .command f⟩)
    (hok : s.accepts true = true) :
    ∃ a t, clientStep E s a = some t ∧ Completable E t ∧ t.toGo E < s.toGo E := by
  have ht : clientStep E s (.command true) = some { s with
      pending := some ⟨.upload inv i, []⟩
      worker := if v.updateComplete then none else some ⟨inv, i + 1, v, .semTake⟩
      log := .sent inv i :: .handed inv i :: s.log } := by
    simp only [clientStep, hw, hok, if_true]
  have hanswer : Answerable E { s with
      pending := some ⟨.upload inv i, []⟩
      worker := if v.updateComplete then none else some ⟨inv, i + 1, v, .semTake⟩
      log := .sent inv i :: .handed inv i :: s.log } := by
    intro inv' i' got hp
    obtain rfl : [] = got := congrArg Pending.got (Option.some.inj hp)
    exact exists_answer E
  have hnext := hs.step ht (by simp [Loses, hok]) hanswer
  refine ⟨_, _, ht, hnext, ?_⟩
  cases hlast : v.updateComplete with
  | true =>
    simp only [System.toGo, hw, if_true]
    split_ifs <;> omega
  | false =>
    have hle := hnext.chunk_le (w := ⟨inv, i + 1, v, .semTake⟩) (by simp [hlast])
    dsimp only at hle
    simp only [System.toGo, hw, Bool.false_eq_true, if_false]
    split_ifs <;> omega

/-- **From wherever the upload is, some step brings it on.** -/
theorem Completable.next (hbusy : s.worker ≠ none) :
    ∃ a t, clientStep E s a = some t ∧ Completable E t ∧ t.toGo E < s.toGo E := by
  obtain ⟨⟨inv, i, v, pc⟩, hw⟩ := Option.ne_none_iff_exists'.1 hbusy
  cases pc with
  | semTake => exact hs.next_semTake hw
  | flashRead => exact hs.next_flashRead hw
  | encode => exact hs.next_encode hw
  | command f =>
    cases hok : s.accepts true with
    | true => exact hs.next_command hw hok
    | false => exact hs.next_refused hw hok

end Next

/-- While the token is there nothing has been cut short. -/
theorem completable_of_alive (E : Setup) {as : List Action} {s : System}
    (hs : (client E).after .start as = some s) (halive : TokenAlive s) (hanswer : Answerable E s) :
    Completable E s := by
  have hlive : s.flow.live ≠ 0 := by
    intro hzero
    have hfree := not_holding_of_live hzero
    rw [s.live_eq, System.held_eq_zero hfree] at hzero
    have := halive hfree
    omega
  have hcurrent := current_or_lost E as
  rw [Machine.last_of_after hs] at hcurrent
  refine ⟨⟨_, hcurrent.resolve_right fun hlost => hlive hlost.live⟩, ?_, hanswer⟩
  exact Machine.after_of_step (M := client E) (fun _ _ _ => Buffered.step)
    (fun _ hp => by cases hp) hs

/-- Whole invocations have sent every chunk. -/
theorem Serial.chunksSent {E : Setup} {n : ℕ} {es : List SendEvent} (h : Serial E n es)
    (hn : n ≠ 0) : E.slot.size / chunkSize + 1 ≤ chunksSent es := by
  cases h with
  | nil => exact absurd rfl hn
  | @snoc n es data fs _ hloop =>
    rw [← length_sendUpload2 hloop, List.append_cons]
    exact length_le_chunksSent _ n fs

/-- **An upload can be completed as long as the token is there.**  For every state
that a run reaches: a continuation of at most `toGo` steps after which every
invocation so far has handed over the whole slot, and a server that kept nothing else
has it. -/
theorem upload_completes (E : Setup) {as : List Action} {s : System}
    (hs : (client E).after .start as = some s) (halive : TokenAlive s)
    (hanswer : Answerable E s) :
    ∃ bs n, bs.length ≤ s.toGo E ∧
      Serial E n ((client E).history sendEvents .start (as ++ bs)) ∧
      (n ≠ 0 → ∀ u, KeptAgrees E.slot E.flash (keptBytes u) →
        (serverAfter u ((client E).history sendEvents .start (as ++ bs))).bytes.take
          E.slot.size = E.slot.contents E.flash) := by
  obtain ⟨bs, t, ht, hlen, hcompletable, hidle⟩ :=
    Machine.exists_run_of_rank (M := client E) (G := fun t => t.worker = none) (System.toGo E)
      (fun u hu hbusy => hu.next hbusy) (completable_of_alive E hs halive hanswer)
  have hrun : (client E).after .start (as ++ bs) = some t := by
    rw [Machine.after_append, hs]
    exact ht
  have hcurrent := current_or_lost E (as ++ bs)
  rw [Machine.last_of_after hrun] at hcurrent
  obtain ⟨h, halive⟩ := hcompletable.current
  have hserial := (hcurrent.resolve_right fun hlost => by
    have := hlost.live
    rw [halive.live] at this
    cases this).idle hidle
  refine ⟨bs, _, hlen, hserial, fun hn u hkept => ?_⟩
  have hdelivered := delivered_run E u (as ++ bs)
  have hall := le_antisymm hdelivered.bound (hserial.chunksSent hn)
  rw [hall] at hdelivered
  exact hdelivered.eq_contents_iff.2 hkept

/-- The client waiting at the first `k_sem_take`. -/
def System.begun : System :=
  { System.start with
    worker := some ⟨0, 0, Locals.start tenByteSlot (Vector.replicate (chunkSize + 1) 0), .semTake⟩
    invocations := 1 }

/-- From there the one chunk takes seven steps. -/
theorem upload_completes_begun :
    ∃ bs n, bs.length ≤ System.begun.toGo sampleSetup ∧
      Serial sampleSetup n ((client sampleSetup).history sendEvents .start
        ([.pressUpload, .startWork (Vector.replicate (chunkSize + 1) 0)] ++ bs)) ∧
      (n ≠ 0 → ∀ u, KeptAgrees tenByteSlot sampleSetup.flash (keptBytes u) →
        (serverAfter u ((client sampleSetup).history sendEvents .start
          ([.pressUpload, .startWork (Vector.replicate (chunkSize + 1) 0)] ++ bs))).bytes.take
            10 = tenByteSlot.contents sampleSetup.flash) :=
  upload_completes sampleSetup (s := System.begun) rfl (fun _ => by decide)
    fun _ _ _ hp => by cases hp

end Client
end NrfSamples
