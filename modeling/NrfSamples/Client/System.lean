/-
# The SMP client as a step system

`bootloader_samples/client_smp/smp_client_ble/src/main.c`: the upload button,
which submits `send_upload2` to the system work queue; the rounds of
`send_upload2`, cut where something can come between; the list, test and confirm
buttons; the parts of the response to the pending command; connecting and
disconnecting.  Any step can follow any other.

Of `bt_dfu_smp` it is assumed that a command is refused while another one is
pending or no peer is connected (and it may fail for other reasons), that the
parts of a response go to the handler of the pending command until it is
complete, and that a disconnect drops the pending command.  The work queue runs
one invocation at a time; a submission while it runs queues one more.

`System.flow` is what the client does with the token of `upload_sem`;
`clientStep_flow` shows that every step of the client is a step of `FlowStep`,
one that loses the token exactly when it is one of the failures of `Loses`.
-/

import NrfSamples.Client.Flow
import NrfSamples.Smp.ImageCommand
import NrfSamples.Smp.SendUpload
import NrfSamples.Smp.UploadRsp
import NrfSamples.Transition.Run

namespace NrfSamples
namespace Client

open Cbor Zcbor Smp Transition

/-- What the client runs on: the zcbor library, the memory that the handlers
read, the secondary slot and the flash. -/
structure Setup where
  enc : ZcborEncoder
  dec : ZcborDecoder
  mem : Memory
  slot : Slot
  flash : ℤ → UInt8

/-- The library as documented, and a slot of ten bytes. -/
def sampleSetup : Setup where
  enc := documentedEncoder
  dec := documented
  mem := .zero
  slot := tenByteSlot
  flash := fun _ => 0

/-- Where `send_upload2` is: at `k_sem_take`, `flash_read`, the encoding, or
`bt_dfu_smp_command` with a frame. -/
inductive WorkerPc
  | semTake
  | flashRead
  | encode
  | command (frame : List UInt8)
  deriving DecidableEq

/-- A running invocation of `send_upload2`, and how many chunks it has sent. -/
structure Worker where
  inv : ℕ
  chunk : ℕ
  locals : Locals
  pc : WorkerPc

/-- The command whose response is awaited. -/
inductive CommandKind
  | upload (inv chunk : ℕ)
  | image
  deriving DecidableEq, Repr

/-- A pending command, and the bytes of its response so far. -/
structure Pending where
  kind : CommandKind
  got : List UInt8

/-- The client.  `lastImages` is the last complete response to an image command,
`hashFrames` are the frames that `send_smp_test` and `send_smp_confirm` sent, each
with the `lastImages` of its time, `log` is what happened to the chunks. -/
structure System where
  statics : Statics
  uploadSem : ℕ
  queued : Bool
  worker : Option Worker
  connected : Bool
  pending : Option Pending
  invocations : ℕ
  lastImages : Option (List UInt8)
  hashFrames : List (List UInt8 × Option (List UInt8))
  log : List FlowEvent

/-- The client after its start: `K_SEM_DEFINE(upload_sem, 1, 1)`. -/
def System.start : System where
  statics := .zero
  uploadSem := 1
  queued := false
  worker := none
  connected := false
  pending := none
  invocations := 0
  lastImages := none
  hashFrames := []
  log := []

/-- One step.  `ok` says whether a call succeeds, as far as the client does not
decide it; `data` is what the stack holds where `send_upload2` has its array. -/
inductive Action
  | pressUpload
  | startWork (data : Vector UInt8 (chunkSize + 1))
  | semTake
  | flashRead (ok : Bool)
  | encode (ok : Bool)
  | command (ok : Bool)
  | pressList (ok : Bool)
  | pressTest (ok : Bool)
  | pressConfirm (ok : Bool)
  | deliver (data : List UInt8)
  | connect
  | disconnect

/-- `bt_dfu_smp_command` accepts a command. -/
def System.accepts (s : System) (ok : Bool) : Bool :=
  ok && s.connected && s.pending.isNone

/-- `button_test` and `button_confirm`: nothing is sent if the encoding fails. -/
def System.sendHash (s : System) (frame : Option (List UInt8)) (ok : Bool) : System :=
  match frame with
  | some f =>
      if s.accepts ok then
        { s with pending := some ⟨.image, []⟩, hashFrames := (f, s.lastImages) :: s.hashFrames }
      else s
  | none => s

/-- The next part of the response, as `bt_dfu_smp` passes it on. -/
def Pending.part (p : Pending) (data : List UInt8) : RspPart :=
  ⟨p.got.length, data, headerSize + hdrLen (p.got ++ data)⟩

/-- The handler of a command. -/
def CommandKind.proc (E : Setup) : CommandKind → RspPart → Statics → RspResult
  | .upload _ _ => smpUploadRspProc E.dec E.mem
  | .image => smpListRspProc E.dec E.mem

/-- The client when the response to the pending command is complete. -/
def System.complete (s : System) (kind : CommandKind) (rsp : List UInt8) (gives : ℕ) : System :=
  match kind with
  | .upload inv i =>
      { s with
        pending := none
        log := (if 0 < gives then .gave inv i else .silent inv i) :: s.log }
  | .image => { s with pending := none, lastImages := some rsp }

/-- The count after `n` calls of `k_sem_give`; its limit is 1. -/
def giveTimes : ℕ → ℕ → ℕ
  | 0, count => count
  | n + 1, count => giveTimes n (min 1 (count + 1))

/-- The client when the next part arrives. -/
def System.receive (E : Setup) (s : System) (p : Pending) (data : List UInt8) : System :=
  let r := p.kind.proc E (p.part data) s.statics
  let s := { s with statics := r.statics, uploadSem := giveTimes r.eff.gives s.uploadSem }
  if (p.part data).totalCheck then s.complete p.kind (p.got ++ data) r.eff.gives
  else { s with pending := some { p with got := p.got ++ data } }

/-- The steps of the client; `none` where a step is not possible. -/
def clientStep (E : Setup) (s : System) : Action → Option System
  | .pressUpload => some { s with queued := true }
  | .startWork data =>
      match s.worker with
      | some _ => none
      | none =>
          if s.queued then
            some { s with
              queued := false
              worker := some ⟨s.invocations, 0, Locals.start E.slot data, .semTake⟩
              invocations := s.invocations + 1 }
          else none
  | .semTake =>
      match s.worker, s.uploadSem with
      | some ⟨inv, i, v, .semTake⟩, n + 1 =>
          some { s with
            uploadSem := n, worker := some ⟨inv, i, chooseChunk E.slot v, .flashRead⟩ }
      | _, _ => none
  | .flashRead ok =>
      match s.worker with
      | some ⟨inv, i, v, .flashRead⟩ =>
          some { s with
            worker := if ok then some ⟨inv, i, readChunk E.flash v, .encode⟩ else none }
      | _ => none
  | .encode ok =>
      match s.worker with
      | some ⟨inv, i, v, .encode⟩ =>
          match uploadFrame E.enc E.slot v, ok with
          | some f, true => some { s with worker := some ⟨inv, i, advance v, .command f⟩ }
          | _, _ => some { s with worker := none }
      | _ => none
  | .command ok =>
      match s.worker with
      | some ⟨inv, i, v, .command _⟩ =>
          if s.accepts ok then
            some { s with
              pending := some ⟨.upload inv i, []⟩
              worker := if v.updateComplete then none else some ⟨inv, i + 1, v, .semTake⟩
              log := .sent inv i :: .handed inv i :: s.log }
          else
            some { s with worker := none, log := .handed inv i :: s.log }
      | _ => none
  | .pressList ok => some (if s.accepts ok then { s with pending := some ⟨.image, []⟩ } else s)
  | .pressTest ok => some (s.sendHash (sendSmpTest E.enc s.statics.hashSecondary) ok)
  | .pressConfirm ok => some (s.sendHash (sendSmpConfirm E.enc s.statics.hashSecondary) ok)
  | .deliver data =>
      match s.pending with
      | some p => if p.got = [] ∧ data.length < headerSize then none else some (s.receive E p data)
      | none => none
  | .connect => if s.connected then none else some { s with connected := true }
  | .disconnect =>
      if s.connected then some { s with connected := false, pending := none } else none

/-- The client from its start on. -/
def client (E : Setup) : Machine System Action where
  init s := s = .start
  step := clientStep E

/-! ### What a step can do -/

/-- The outcomes of the steps, one case for each. -/
inductive ClientStep (E : Setup) (s : System) : Action → System → Prop
  | pressUpload : ClientStep E s .pressUpload { s with queued := true }
  | startWork (data : Vector UInt8 (chunkSize + 1)) : s.worker = none → s.queued = true →
      ClientStep E s (.startWork data) { s with
        queued := false
        worker := some ⟨s.invocations, 0, Locals.start E.slot data, .semTake⟩
        invocations := s.invocations + 1 }
  | semTake {inv i n : ℕ} {v : Locals} : s.worker = some ⟨inv, i, v, .semTake⟩ →
      s.uploadSem = n + 1 → ClientStep E s .semTake { s with
        uploadSem := n, worker := some ⟨inv, i, chooseChunk E.slot v, .flashRead⟩ }
  | readOk {inv i : ℕ} {v : Locals} : s.worker = some ⟨inv, i, v, .flashRead⟩ →
      ClientStep E s (.flashRead true) { s with
        worker := some ⟨inv, i, readChunk E.flash v, .encode⟩ }
  | readFails {inv i : ℕ} {v : Locals} : s.worker = some ⟨inv, i, v, .flashRead⟩ →
      ClientStep E s (.flashRead false) { s with worker := none }
  | encodeOk {inv i : ℕ} {v : Locals} {f : List UInt8} : s.worker = some ⟨inv, i, v, .encode⟩ →
      uploadFrame E.enc E.slot v = some f →
      ClientStep E s (.encode true) { s with worker := some ⟨inv, i, advance v, .command f⟩ }
  | encodeFails {ok : Bool} {inv i : ℕ} {v : Locals} : s.worker = some ⟨inv, i, v, .encode⟩ →
      ok = false ∨ uploadFrame E.enc E.slot v = none →
      ClientStep E s (.encode ok) { s with worker := none }
  | commandOk {ok : Bool} {inv i : ℕ} {v : Locals} {f : List UInt8} :
      s.worker = some ⟨inv, i, v, .command f⟩ → s.accepts ok = true →
      ClientStep E s (.command ok) { s with
        pending := some ⟨.upload inv i, []⟩
        worker := if v.updateComplete then none else some ⟨inv, i + 1, v, .semTake⟩
        log := .sent inv i :: .handed inv i :: s.log }
  | commandFails {ok : Bool} {inv i : ℕ} {v : Locals} {f : List UInt8} :
      s.worker = some ⟨inv, i, v, .command f⟩ → s.accepts ok = false →
      ClientStep E s (.command ok) { s with worker := none, log := .handed inv i :: s.log }
  | list {ok : Bool} : s.accepts ok = true →
      ClientStep E s (.pressList ok) { s with pending := some ⟨.image, []⟩ }
  | hash {a : Action} {ok confirm : Bool} {f : List UInt8} :
      (a = .pressTest ok ∨ a = .pressConfirm ok) → s.accepts ok = true →
      imageFrame E.enc s.statics.hashSecondary confirm = some f →
      ClientStep E s a { s with
        pending := some ⟨.image, []⟩, hashFrames := (f, s.lastImages) :: s.hashFrames }
  | notSent {a : Action} {ok : Bool} :
      (a = .pressList ok ∨ a = .pressTest ok ∨ a = .pressConfirm ok) → ClientStep E s a s
  | deliver {p : Pending} (data : List UInt8) : s.pending = some p →
      ClientStep E s (.deliver data) (s.receive E p data)
  | connect : s.connected = false → ClientStep E s .connect { s with connected := true }
  | disconnect : s.connected = true →
      ClientStep E s .disconnect { s with connected := false, pending := none }

theorem sendHash_cases {E : Setup} {s : System} {a : Action} {ok : Bool} (confirm : Bool)
    (ha : a = .pressTest ok ∨ a = .pressConfirm ok) :
    ClientStep E s a (s.sendHash (imageFrame E.enc s.statics.hashSecondary confirm) ok) := by
  unfold System.sendHash
  split
  · rename_i f hf
    split_ifs with hok
    · exact .hash ha hok hf
    · exact .notSent (.inr ha)
  · exact .notSent (.inr ha)

/-- **Every step is one of these.** -/
theorem clientStep_cases {E : Setup} {s t : System} {a : Action} (h : clientStep E s a = some t) :
    ClientStep E s a t := by
  cases a with
  | pressUpload =>
    obtain rfl := Option.some.inj h
    exact .pressUpload
  | startWork data =>
    simp only [clientStep] at h
    split at h
    · cases h
    · rename_i hw
      split_ifs at h with hq
      obtain rfl := Option.some.inj h
      exact .startWork data hw hq
  | semTake =>
    simp only [clientStep] at h
    split at h
    · rename_i hw hn
      obtain rfl := Option.some.inj h
      exact .semTake hw hn
    · cases h
  | flashRead ok =>
    simp only [clientStep] at h
    split at h
    · rename_i hw
      obtain rfl := Option.some.inj h
      cases ok with
      | true => exact .readOk hw
      | false => exact .readFails hw
    · cases h
  | encode ok =>
    simp only [clientStep] at h
    split at h
    · rename_i inv i v hw
      rcases hf : uploadFrame E.enc E.slot v with _ | f
      · rw [hf] at h
        obtain rfl := Option.some.inj h
        exact .encodeFails hw (.inr hf)
      · rw [hf] at h
        cases ok with
        | true =>
          obtain rfl := Option.some.inj h
          exact .encodeOk hw hf
        | false =>
          obtain rfl := Option.some.inj h
          exact .encodeFails hw (.inl rfl)
    · cases h
  | command ok =>
    simp only [clientStep] at h
    split at h
    · rename_i hw
      by_cases hok : s.accepts ok = true
      · rw [if_pos hok] at h
        obtain rfl := Option.some.inj h
        exact .commandOk hw hok
      · rw [if_neg hok] at h
        obtain rfl := Option.some.inj h
        exact .commandFails hw (Bool.eq_false_iff.2 hok)
    · cases h
  | pressList ok =>
    obtain rfl := Option.some.inj h
    split_ifs with hok
    · exact .list hok
    · exact .notSent (.inl rfl)
  | pressTest ok =>
    obtain rfl := Option.some.inj h
    exact sendHash_cases false (.inl rfl)
  | pressConfirm ok =>
    obtain rfl := Option.some.inj h
    exact sendHash_cases true (.inr rfl)
  | deliver data =>
    simp only [clientStep] at h
    split at h
    · rename_i hp
      split_ifs at h
      obtain rfl := Option.some.inj h
      exact .deliver data hp
    · cases h
  | connect =>
    simp only [clientStep] at h
    split_ifs at h with hc
    obtain rfl := Option.some.inj h
    exact .connect (Bool.eq_false_iff.2 hc)
  | disconnect =>
    simp only [clientStep] at h
    split_ifs at h with hc
    obtain rfl := Option.some.inj h
    exact .disconnect hc

/-! ### The token -/

def Worker.phase (w : Worker) : Phase :=
  match w.pc with
  | .semTake => .waiting w.inv w.chunk
  | _ => .holding w.inv w.chunk

def Pending.chunk (p : Pending) : Option (ℕ × ℕ) :=
  match p.kind with
  | .upload inv i => some (inv, i)
  | .image => none

/-- What the client does with the token of `upload_sem`. -/
def System.flow (s : System) : Flow where
  count := s.uploadSem
  phase := (s.worker.map Worker.phase).getD .idle
  outstanding := s.pending.bind Pending.chunk
  log := s.log

/-- The steps that lose the token: `flash_read`, the encoding or the command
fails; a complete upload response does not give it back; an upload command is
dropped. -/
def Loses (E : Setup) (s : System) : Action → Prop
  | .flashRead ok => ok = false
  | .encode ok => ok = false ∨ ∃ w, s.worker = some w ∧ uploadFrame E.enc E.slot w.locals = none
  | .command ok => s.accepts ok = false
  | .deliver data => ∃ p inv i, s.pending = some p ∧ p.kind = .upload inv i ∧
      (p.part data).totalCheck = true ∧ ¬ (receive (p.part data) s.statics.rsp).GivesToken E.mem
  | .disconnect => ∃ p inv i, s.pending = some p ∧ p.kind = .upload inv i
  | _ => False

/-- A step that leaves the token where it is and cannot lose it. -/
theorem flow_of_eq {E : Setup} {s t : System} {a : Action} (hno : ¬ Loses E s a)
    (h : FlowStep false s.flow t.flow) :
    (Loses E s a → FlowStep true s.flow t.flow) ∧
      (¬ Loses E s a → FlowStep false s.flow t.flow) :=
  ⟨fun hl => absurd hl hno, fun _ => h⟩

/-- A part of another response leaves the token where it is. -/
theorem receive_image_flow (E : Setup) {s : System} {got data : List UInt8}
    (hp : s.pending = some ⟨.image, got⟩) : (s.receive E ⟨.image, got⟩ data).flow = s.flow := by
  have hgives : (CommandKind.image.proc E (Pending.part ⟨.image, got⟩ data) s.statics).eff.gives
      = 0 := smpListRspProc_gives E.dec E.mem _ s.statics
  unfold System.receive
  simp only [hgives, giveTimes]
  split_ifs
  · simp [System.complete, System.flow, hp, Pending.chunk]
  · simp [System.flow, hp, Pending.chunk]

/-- A part of an upload response. -/
theorem receive_upload_flow (E : Setup) {s : System} {inv i : ℕ} {got data : List UInt8}
    (hp : s.pending = some ⟨.upload inv i, got⟩) :
    (Loses E s (.deliver data) →
        FlowStep true s.flow (s.receive E ⟨.upload inv i, got⟩ data).flow) ∧
      (¬ Loses E s (.deliver data) →
        FlowStep false s.flow (s.receive E ⟨.upload inv i, got⟩ data).flow) := by
  have hout : s.flow.outstanding = some (inv, i) := by simp [System.flow, hp, Pending.chunk]
  have hloses : Loses E s (.deliver data) ↔
      (Pending.part ⟨.upload inv i, got⟩ data).totalCheck = true ∧
        ¬ (receive (Pending.part ⟨.upload inv i, got⟩ data) s.statics.rsp).GivesToken E.mem := by
    constructor
    · rintro ⟨q, inv', i', hq, -, h⟩
      obtain rfl := Option.some.inj (hp.symm.trans hq)
      exact h
    · exact fun h => ⟨_, inv, i, hp, rfl, h⟩
  obtain ⟨hyes, hno⟩ := smpUploadRspProc_gives E.dec E.mem
    (Pending.part ⟨.upload inv i, got⟩ data) s.statics
  have hproc : (CommandKind.upload inv i).proc E = smpUploadRspProc E.dec E.mem := rfl
  rw [hloses]
  by_cases ht : (Pending.part ⟨.upload inv i, got⟩ data).totalCheck = true
  · by_cases hg : (receive (Pending.part ⟨.upload inv i, got⟩ data) s.statics.rsp).GivesToken E.mem
    · have hflow : (s.receive E ⟨.upload inv i, got⟩ data).flow =
          { s.flow with
            count := min 1 (s.flow.count + 1), outstanding := none
            log := .gave inv i :: s.flow.log } := by
        simp [System.receive, hproc, ht, hyes ⟨ht, hg⟩, System.complete, System.flow, giveTimes]
      rw [hflow]
      exact ⟨fun h => absurd hg h.2, fun _ => .gave hout⟩
    · have hflow : (s.receive E ⟨.upload inv i, got⟩ data).flow =
          { s.flow with outstanding := none, log := .silent inv i :: s.flow.log } := by
        simp [System.receive, hproc, ht, hno fun h => hg h.2, System.complete, System.flow,
          giveTimes]
      rw [hflow]
      exact ⟨fun _ => .silent hout, fun h => absurd ⟨ht, hg⟩ h⟩
  · have hflow : (s.receive E ⟨.upload inv i, got⟩ data).flow = s.flow := by
      simp [System.receive, hproc, ht, hno fun h => ht h.1, System.flow, giveTimes, hp,
        Pending.chunk]
    rw [hflow]
    exact ⟨fun h => absurd h.1 ht, fun _ => .stay _⟩

/-- **A part of a response.** -/
theorem receive_flow (E : Setup) {s : System} {p : Pending} (hp : s.pending = some p)
    (data : List UInt8) :
    (Loses E s (.deliver data) → FlowStep true s.flow (s.receive E p data).flow) ∧
      (¬ Loses E s (.deliver data) → FlowStep false s.flow (s.receive E p data).flow) := by
  obtain ⟨kind, got⟩ := p
  cases kind with
  | image =>
    refine flow_of_eq ?_ (receive_image_flow E hp ▸ .stay _)
    rintro ⟨q, inv, i, hq, hkind, -⟩
    obtain rfl := Option.some.inj (hp.symm.trans hq)
    cases hkind
  | upload inv i => exact receive_upload_flow E hp

/-- From the semaphore on the worker holds the token. -/
theorem flow_holding {s : System} {inv i : ℕ} {v : Locals} {pc : WorkerPc}
    (hw : s.worker = some ⟨inv, i, v, pc⟩) (hpc : pc ≠ .semTake) :
    s.flow.phase = .holding inv i := by
  rw [System.flow, hw]
  cases pc with
  | semTake => exact absurd rfl hpc
  | _ => rfl

/-- A disconnect loses the token exactly if an upload command is dropped. -/
theorem disconnect_flow (E : Setup) (s : System) :
    (Loses E s .disconnect →
        FlowStep true s.flow (System.flow { s with connected := false, pending := none })) ∧
      (¬ Loses E s .disconnect →
        FlowStep false s.flow (System.flow { s with connected := false, pending := none })) := by
  rcases hout : s.flow.outstanding with _ | ⟨inv, i⟩
  · have hflow : s.flow = System.flow { s with connected := false, pending := none } := by
      rw [System.flow, System.flow, Flow.mk.injEq]
      exact ⟨rfl, rfl, hout, rfl⟩
    refine flow_of_eq ?_ (hflow ▸ .stay _)
    rintro ⟨⟨kind, got⟩, inv, i, hp, rfl⟩
    rw [System.flow, hp] at hout
    cases hout
  · refine ⟨fun _ => .drop hout, fun hno => absurd ?_ hno⟩
    obtain ⟨⟨kind, got⟩, hp, hchunk⟩ := Option.bind_eq_some_iff.1 hout
    cases kind with
    | upload inv' i' => exact ⟨_, inv', i', hp, rfl⟩
    | image => cases hchunk

theorem accepts_pending {s : System} {ok : Bool} (h : s.accepts ok = true) : s.pending = none := by
  simp only [System.accepts, Bool.and_eq_true, Option.isNone_iff_eq_none] at h
  exact h.2

/-- **The client refines the token.**  Every step is a step of `FlowStep`, and it
loses the token exactly when it is one of the failures. -/
theorem clientStep_flow (E : Setup) {s t : System} {a : Action} (h : clientStep E s a = some t) :
    (Loses E s a → FlowStep true s.flow t.flow) ∧
      (¬ Loses E s a → FlowStep false s.flow t.flow) := by
  cases clientStep_cases h with
  | pressUpload => exact flow_of_eq id (.stay _)
  | startWork data hw hq =>
    exact flow_of_eq id (.start s.invocations (by simp [System.flow, hw]))
  | semTake hw hn => exact flow_of_eq id (.take (by simp [System.flow, hw, Worker.phase]) hn)
  | @readOk inv i v hw =>
    have hflow : s.flow = System.flow
        { s with worker := some ⟨inv, i, readChunk E.flash v, .encode⟩ } := by
      simp [System.flow, hw, Worker.phase]
    exact flow_of_eq Bool.noConfusion (hflow ▸ .stay _)
  | @readFails inv i v hw =>
    have hphase := flow_holding hw nofun
    exact ⟨fun _ => .fail hphase, fun hno => absurd rfl hno⟩
  | @encodeOk inv i v f hw hf =>
    have hflow : s.flow = System.flow
        { s with worker := some ⟨inv, i, advance v, .command f⟩ } := by
      simp [System.flow, hw, Worker.phase]
    refine flow_of_eq ?_ (hflow ▸ .stay _)
    rintro (h | ⟨w, hw', hnone⟩)
    · cases h
    · obtain rfl := Option.some.inj (hw.symm.trans hw')
      rw [hf] at hnone
      cases hnone
  | @encodeFails ok inv i v hw hfails =>
    have hphase := flow_holding hw nofun
    refine ⟨fun _ => .fail hphase, fun hno => absurd ?_ hno⟩
    rcases hfails with hok | hf
    · exact .inl hok
    · exact .inr ⟨_, hw, hf⟩
  | @commandOk ok inv i v f hw hok =>
    have hphase := flow_holding hw nofun
    have hnone : s.flow.outstanding = none := by simp [System.flow, accepts_pending hok]
    refine flow_of_eq (by simp [Loses, hok]) ?_
    have hsend := FlowStep.send v.updateComplete hphase hnone
    cases hlast : v.updateComplete <;>
      simpa [System.flow, hlast, Worker.phase, Pending.chunk] using hsend
  | @commandFails ok inv i v f hw hok =>
    have hphase := flow_holding hw nofun
    exact ⟨fun _ => .refuse hphase, fun hno => absurd hok hno⟩
  | list hok =>
    have hflow : s.flow = System.flow { s with pending := some ⟨.image, []⟩ } := by
      simp [System.flow, accepts_pending hok, Pending.chunk]
    exact flow_of_eq id (hflow ▸ .stay _)
  | @hash _ ok _ f ha hok _ =>
    have hflow : s.flow = System.flow { s with
        pending := some ⟨.image, []⟩, hashFrames := (f, s.lastImages) :: s.hashFrames } := by
      simp [System.flow, accepts_pending hok, Pending.chunk]
    refine flow_of_eq ?_ (hflow ▸ .stay _)
    rcases ha with rfl | rfl <;> exact id
  | notSent ha =>
    refine flow_of_eq ?_ (.stay _)
    rcases ha with rfl | rfl | rfl <;> exact id
  | deliver data hp => exact receive_flow E hp data
  | connect => exact flow_of_eq id (.stay _)
  | disconnect => exact disconnect_flow E s

end Client
end NrfSamples
