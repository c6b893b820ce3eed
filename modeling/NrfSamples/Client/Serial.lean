/-
# The uploads of a run, one after the other

`send_upload2` in `bootloader_samples/client_smp/smp_client_ble/src/main.c` is a
loop, but it runs in pieces: between its `k_sem_take`, `flash_read`, encoding and
`bt_dfu_smp_command` come button presses, parts of responses, disconnects.
`sendUpload2` is the loop without any of that.

`sequential_history`: in every run of the client the frames handed over are those
of that loop.  Every invocation hands over the frames of `sendUpload2` from the
first on, in order, none left out and none twice, and the frames of two
invocations do not mix.  Only one invocation can be cut short, the last one that
hands over anything: whoever returns early keeps the token of `upload_sem`, and
the invocation after it waits for the token for ever.
-/

import NrfSamples.Client.Token
import NrfSamples.Smp.Tiling
import NrfSamples.Transition.Reach

namespace NrfSamples
namespace Client

open Cbor Zcbor Smp Transition

/-- What can be seen of the uploads: an invocation starts, with this in its array;
a chunk of an invocation is handed to `bt_dfu_smp_command`, which accepts it or
does not. -/
inductive SendEvent
  | started (data : Vector UInt8 (chunkSize + 1))
  | handed (inv chunk : ℕ) (frame : List UInt8) (accepted : Bool)
  deriving DecidableEq

/-- What can be seen of a step. -/
def sendEvents (s : System) : Action → List SendEvent
  | .startWork data => [.started data]
  | .command ok =>
      match s.worker with
      | some ⟨inv, i, _, .command f⟩ => [.handed inv i f (s.accepts ok)]
      | _ => []
  | _ => []

/-- A chunk is handed over. -/
def SendEvent.isHanded : SendEvent → Bool
  | .handed _ _ _ _ => true
  | .started _ => false

/-- The chunks handed over. -/
def handedOver (es : List SendEvent) : List SendEvent := es.filter SendEvent.isHanded

/-- The first chunks of an invocation, all accepted. -/
def acceptedChunks (inv : ℕ) (fs : List (List UInt8)) : List SendEvent :=
  fs.mapIdx fun i f => .handed inv i f true

/-- What can be seen of one invocation: it starts, and hands over the first frames
of the loop; they are all accepted, except perhaps the last. -/
inductive Invocation (E : Setup) (inv : ℕ) : List SendEvent → Prop
  | accepted {data : Vector UInt8 (chunkSize + 1)} {fs sent : List (List UInt8)} :
      sendUpload2 E.enc E.slot E.flash data = some fs → sent <+: fs →
      Invocation E inv (.started data :: acceptedChunks inv sent)
  | refused {data : Vector UInt8 (chunkSize + 1)} {fs sent : List (List UInt8)}
      {f : List UInt8} :
      sendUpload2 E.enc E.slot E.flash data = some fs → sent ++ [f] <+: fs →
      Invocation E inv
        (.started data :: (acceptedChunks inv sent ++ [.handed inv sent.length f false]))

/-- `n` invocations, each of which hands over every frame of the loop, all of them
accepted. -/
inductive Serial (E : Setup) : ℕ → List SendEvent → Prop
  | nil : Serial E 0 []
  | snoc {n : ℕ} {es : List SendEvent} {data : Vector UInt8 (chunkSize + 1)}
      {fs : List (List UInt8)} : Serial E n es →
      sendUpload2 E.enc E.slot E.flash data = some fs →
      Serial E (n + 1) (es ++ .started data :: acceptedChunks n fs)

/-- Whole invocations, then one that may be cut short, then one that may have
started and hands over nothing. -/
def Sequential (E : Setup) (es : List SendEvent) : Prop :=
  ∃ n whole cut stuck, es = whole ++ (cut ++ stuck) ∧ Serial E n whole ∧
    (cut = [] ∨ Invocation E n cut) ∧ (stuck = [] ∨ ∃ data, stuck = [.started data])

theorem acceptedChunks_snoc (inv : ℕ) (fs : List (List UInt8)) (f : List UInt8) :
    acceptedChunks inv (fs ++ [f]) = acceptedChunks inv fs ++ [.handed inv fs.length f true] := by
  simp [acceptedChunks, List.mapIdx_append]

/-! ### An invocation and the loop -/

/-- The locals of an invocation in a round that began with `v`. -/
def Worker.AtStage (E : Setup) (v : Locals) (w : Worker) : Prop :=
  match w.pc with
  | .semTake => w.locals = v
  | .flashRead => w.locals = chooseChunk E.slot v
  | .encode => w.locals = readChunk E.flash (chooseChunk E.slot v)
  | .command f =>
      w.locals = advance (readChunk E.flash (chooseChunk E.slot v)) ∧
        uploadFrame E.enc E.slot (readChunk E.flash (chooseChunk E.slot v)) = some f

/-- The invocation is where the loop is when it has sent `sent`; what is left of the
loop is `rest`. -/
structure Worker.Follows (E : Setup) (data : Vector UInt8 (chunkSize + 1))
    (sent rest : List (List UInt8)) (v : Locals) (w : Worker) : Prop where
  loop : sendUpload2 E.enc E.slot E.flash data = some (sent ++ rest)
  left : ∃ fuel, sendAll E.enc E.slot E.flash fuel v = some rest
  chunk : w.chunk = sent.length
  atChunk : AtChunk E.slot sent.length v
  stage : w.AtStage E v

theorem Worker.Follows.start (E : Setup) (data : Vector UInt8 (chunkSize + 1)) (inv : ℕ) :
    ∃ fs, Worker.Follows E data [] fs (Locals.start E.slot data)
      ⟨inv, 0, Locals.start E.slot data, .semTake⟩ := by
  obtain ⟨fs, qs, hfs, -⟩ := sendUpload2_spec E.enc E.slot E.flash data
  exact ⟨fs, hfs, ⟨_, hfs⟩, rfl, .start E.slot data, rfl⟩

/-- What is left of the loop begins with the frame of the round. -/
theorem sendAll_round {z : ZcborEncoder} {S : Slot} {flash : ℤ → UInt8} {fuel i : ℕ} {v : Locals}
    {f : List UInt8} {rest : List (List UInt8)} (hv : AtChunk S i v)
    (hf : uploadFrame z S (readChunk flash (chooseChunk S v)) = some f)
    (h : sendAll z S flash fuel v = some rest) :
    ∃ fuel' rest', rest = f :: rest' ∧
      sendAll z S flash fuel' (advance (readChunk flash (chooseChunk S v))) = some rest' := by
  cases fuel with
  | zero =>
    rw [sendAll_zero z hv.complete] at h
    cases h
  | succ fuel =>
    obtain ⟨c, hround, rfl, -⟩ := round_of_frame z S hf
    rw [sendAll_succ z hv.complete hround] at h
    obtain ⟨rest', hrest, rfl⟩ := Option.map_eq_some_iff.1 h
    exact ⟨fuel, rest', rfl, hrest⟩

/-- **A chunk that is accepted.**  The loop is over, or goes on to the next chunk. -/
theorem Worker.Follows.sent {E : Setup} {data : Vector UInt8 (chunkSize + 1)}
    {sent rest : List (List UInt8)} {v u : Locals} {inv i : ℕ} {f : List UInt8}
    (h : Worker.Follows E data sent rest v ⟨inv, i, u, .command f⟩) :
    ∃ rest', rest = f :: rest' ∧ (u.updateComplete = true → rest' = []) ∧
      (u.updateComplete = false →
        Worker.Follows E data (sent ++ [f]) rest' u ⟨inv, i + 1, u, .semTake⟩) := by
  obtain ⟨rfl, hf⟩ : u = _ ∧ _ := h.stage
  obtain ⟨fuel, hleft⟩ := h.left
  obtain ⟨fuel', rest', rfl, hrest⟩ := sendAll_round h.atChunk hf hleft
  refine ⟨rest', rfl, ?_, ?_⟩
  · intro hlast
    rw [sendAll_complete _ _ _ _ hlast] at hrest
    exact (Option.some.inj hrest).symm
  · intro hmore
    have hnext : chunkSize * (sent.length + 1) ≤ E.slot.size := by
      by_contra hno
      have hlast := h.atChunk.chooseChunk.2.2.2.2 (not_le.1 hno)
      exact absurd (hlast.symm.trans hmore) (by decide)
    refine ⟨by rw [h.loop, List.append_assoc, List.singleton_append], ⟨fuel', hrest⟩, ?_, ?_, rfl⟩
    · have hchunk : i = sent.length := h.chunk
      rw [List.length_append, List.length_singleton, hchunk]
    · rw [List.length_append, List.length_singleton]
      exact h.atChunk.advance E.flash hnext

/-- The frame of a round carries its chunk. -/
theorem Worker.Follows.carries {E : Setup} {data : Vector UInt8 (chunkSize + 1)}
    {sent rest : List (List UInt8)} {v u : Locals} {inv i : ℕ} {f : List UInt8}
    (h : Worker.Follows E data sent rest v ⟨inv, i, u, .command f⟩) :
    i = sent.length ∧ chunkSize * i ≤ E.slot.size ∧
      ∃ q, readUploadReq f = some q ∧ CarriesChunk E.slot E.flash i q := by
  obtain ⟨-, hf⟩ : u = _ ∧ _ := h.stage
  obtain rfl : i = sent.length := h.chunk
  obtain ⟨c', q, v', hround', hq, hcarries, -⟩ := round_spec E.enc E.flash h.atChunk
  obtain ⟨c, hround, rfl, -⟩ := round_of_frame E.enc E.slot hf
  obtain ⟨rfl, -⟩ := Prod.mk.inj (Option.some.inj (hround.symm.trans hround'))
  exact ⟨rfl, h.atChunk.le, q, hq, hcarries⟩

/-! ### What every step keeps -/

theorem complete_uploads (s : System) (kind : CommandKind) (rsp : List UInt8) (gives : ℕ) :
    (s.complete kind rsp gives).worker = s.worker ∧
      (s.complete kind rsp gives).invocations = s.invocations ∧
        (s.complete kind rsp gives).queued = s.queued := by
  cases kind <;> exact ⟨rfl, rfl, rfl⟩

/-- A part of a response leaves the uploads alone. -/
theorem receive_uploads (E : Setup) (s : System) (p : Pending) (data : List UInt8) :
    (s.receive E p data).worker = s.worker ∧
      (s.receive E p data).invocations = s.invocations ∧
        (s.receive E p data).queued = s.queued := by
  unfold System.receive
  dsimp only
  split_ifs
  · exact complete_uploads _ _ _ _
  · exact ⟨rfl, rfl, rfl⟩

/-- The token is there, and nothing has been cut short. -/
structure Current (E : Setup) (h : List SendEvent) (s : System) : Prop where
  live : s.flow.live = 1
  idle : s.worker = none → Serial E s.invocations h
  busy : ∀ w, s.worker = some w → ∃ whole data sent rest v,
    h = whole ++ .started data :: acceptedChunks w.inv sent ∧ Serial E w.inv whole ∧
      s.invocations = w.inv + 1 ∧ w.Follows E data sent rest v

/-- The token is lost. -/
structure Lost (E : Setup) (h : List SendEvent) (s : System) : Prop where
  live : s.flow.live = 0
  past : ∃ n whole cut stuck, h = whole ++ (cut ++ stuck) ∧ Serial E n whole ∧
    (cut = [] ∨ Invocation E n cut) ∧
      (stuck = [] ∨ s.worker ≠ none ∧ ∃ data, stuck = [.started data])

theorem Current.start (E : Setup) : Current E [] .start where
  live := rfl
  idle := fun _ => .nil
  busy := fun _ h => by cases h

section Step

variable {E : Setup} {h : List SendEvent} {s t : System} {a : Action}

/-- Whole invocations, and the beginning of one. -/
theorem Current.cut (hs : Current E h s) : ∃ n whole cut, h = whole ++ (cut ++ []) ∧
    Serial E n whole ∧ (cut = [] ∨ Invocation E n cut) := by
  cases hw : s.worker with
  | none => exact ⟨s.invocations, h, [], by simp, hs.idle hw, .inl rfl⟩
  | some w =>
    obtain ⟨whole, data, sent, rest, v, hh, hwhole, -, hfollows⟩ := hs.busy w hw
    exact ⟨w.inv, whole, _, by rw [hh, List.append_nil], hwhole,
      .inr (.accepted hfollows.loop (List.prefix_append sent rest))⟩

/-- The step that loses the token cuts the invocation short. -/
theorem Current.lost (hs : Current E h s) (hlive : t.flow.live = 0) : Lost E h t := by
  obtain ⟨n, whole, cut, hh, hwhole, hcut⟩ := hs.cut
  exact ⟨hlive, n, whole, cut, [], hh, hwhole, hcut, .inl rfl⟩

/-- A step that leaves the uploads alone. -/
theorem Current.quiet (hs : Current E h s) (hlive : t.flow.live = 1)
    (hworker : t.worker = s.worker) (hinv : t.invocations = s.invocations) : Current E h t where
  live := hlive
  idle := fun hw => by rw [hinv]; exact hs.idle (hworker ▸ hw)
  busy := fun w hw => by rw [hinv]; exact hs.busy w (hworker ▸ hw)

/-- A step of the loop between two chunks. -/
theorem Current.stage (hs : Current E h s) (hlive : t.flow.live = 1) {inv i : ℕ} {u u' : Locals}
    {pc pc' : WorkerPc} (hw : s.worker = some ⟨inv, i, u, pc⟩)
    (hw' : t.worker = some ⟨inv, i, u', pc'⟩) (hinv : t.invocations = s.invocations)
    (hstage : ∀ v, Worker.AtStage E v ⟨inv, i, u, pc⟩ → Worker.AtStage E v ⟨inv, i, u', pc'⟩) :
    Current E h t where
  live := hlive
  idle := fun hnone => by rw [hw'] at hnone; cases hnone
  busy := fun w hsome => by
    obtain rfl := Option.some.inj (hw'.symm.trans hsome)
    obtain ⟨whole, data, sent, rest, v, hh, hwhole, hcount, hfollows⟩ := hs.busy _ hw
    exact ⟨whole, data, sent, rest, v, hh, hwhole, by rw [hinv]; exact hcount,
      { hfollows with stage := hstage v hfollows.stage }⟩

/-- Nobody holds a token that is lost, and the semaphore has none. -/
theorem Lost.stuck (hs : Lost E h s) : s.uploadSem = 0 ∧ ¬ s.Holding := by
  have hlive := hs.live
  rw [s.live_eq] at hlive
  refine ⟨by omega, fun hold => ?_⟩
  rw [System.held_eq_one hold] at hlive
  omega

/-- Only a new invocation shows after the token is lost. -/
theorem Lost.quiet (hs : Lost E h s) (hlive : t.flow.live = 0) (hworker : t.worker = s.worker) :
    Lost E h t := by
  obtain ⟨n, whole, cut, stuck, hh, hwhole, hcut, hstuck⟩ := hs.past
  exact ⟨hlive, n, whole, cut, stuck, hh, hwhole, hcut, by rw [hworker]; exact hstuck⟩

/-- An invocation starts. -/
theorem Current.startWork (hs : Current E h s) (hw : s.worker = none)
    {data : Vector UInt8 (chunkSize + 1)} (hlive : t.flow.live = 1)
    (hw' : t.worker = some ⟨s.invocations, 0, Locals.start E.slot data, .semTake⟩)
    (hinv : t.invocations = s.invocations + 1) : Current E (h ++ [.started data]) t where
  live := hlive
  idle := fun hnone => by rw [hw'] at hnone; cases hnone
  busy := fun w hsome => by
    obtain rfl := Option.some.inj (hw'.symm.trans hsome)
    obtain ⟨fs, hfollows⟩ := Worker.Follows.start E data s.invocations
    exact ⟨h, data, [], fs, _, rfl, hs.idle hw, hinv, hfollows⟩

/-- **A chunk is accepted.** -/
theorem Current.accepted (hs : Current E h s) {inv i : ℕ} {u : Locals} {f : List UInt8}
    (hlive : t.flow.live = 1) (hw : s.worker = some ⟨inv, i, u, .command f⟩)
    (hw' : t.worker = if u.updateComplete then none else some ⟨inv, i + 1, u, .semTake⟩)
    (hinv : t.invocations = s.invocations) :
    Current E (h ++ [.handed inv i f true]) t := by
  obtain ⟨whole, data, sent, rest, v, rfl, hwhole, hcount, hfollows⟩ := hs.busy _ hw
  obtain ⟨rest', rfl, hlast, hmore⟩ := hfollows.sent
  obtain rfl : i = sent.length := hfollows.chunk
  have hchunks : whole ++ .started data :: acceptedChunks inv sent ++ [.handed inv sent.length f true] =
      whole ++ .started data :: acceptedChunks inv (sent ++ [f]) := by
    rw [acceptedChunks_snoc, List.append_assoc, List.cons_append]
  rw [hchunks]
  refine ⟨hlive, ?_, ?_⟩
  · intro hnone
    have hcomplete : u.updateComplete = true := by
      by_contra hno
      rw [hw', if_neg hno] at hnone
      cases hnone
    obtain rfl := hlast hcomplete
    rw [hinv, hcount]
    exact .snoc hwhole hfollows.loop
  · intro w hsome
    have hcomplete : u.updateComplete = false := by
      by_contra hno
      rw [hw', if_pos (Bool.not_eq_false _ ▸ hno)] at hsome
      cases hsome
    rw [hw', hcomplete] at hsome
    obtain rfl := Option.some.inj hsome
    exact ⟨whole, data, sent ++ [f], rest', u, rfl, hwhole, by rw [hinv]; exact hcount,
      hmore hcomplete⟩

/-- A chunk is refused. -/
theorem Current.refused (hs : Current E h s) {inv i : ℕ} {u : Locals} {f : List UInt8}
    (hlive : t.flow.live = 0) (hw : s.worker = some ⟨inv, i, u, .command f⟩) :
    Lost E (h ++ [.handed inv i f false]) t := by
  obtain ⟨whole, data, sent, rest, v, rfl, hwhole, -, hfollows⟩ := hs.busy _ hw
  obtain ⟨rest', rfl, -, -⟩ := hfollows.sent
  obtain rfl : i = sent.length := hfollows.chunk
  have hpart : sent ++ [f] <+: sent ++ f :: rest' :=
    ⟨rest', by rw [List.append_assoc, List.singleton_append]⟩
  exact ⟨hlive, inv, whole, _, [], by rw [List.append_nil, List.append_assoc]; rfl, hwhole,
    .inr (.refused hfollows.loop hpart), .inl rfl⟩

end Step

/-- An encoding that succeeds loses nothing. -/
theorem not_loses_encode {E : Setup} {s : System} {inv i : ℕ} {u : Locals} {f : List UInt8}
    (hw : s.worker = some ⟨inv, i, u, .encode⟩) (hf : uploadFrame E.enc E.slot u = some f) :
    ¬ Loses E s (.encode true) := by
  rintro (h | ⟨w, hw', hnone⟩)
  · cases h
  · obtain rfl := Option.some.inj (hw.symm.trans hw')
    rw [hf] at hnone
    cases hnone

/-- A lost token stays lost. -/
theorem live_zero_step {E : Setup} {s t : System} {a : Action} (hs : s.flow.live = 0)
    (ht : clientStep E s a = some t) : t.flow.live = 0 := by
  obtain ⟨hloses, hkeeps⟩ := clientStep_flow E ht
  have hle : s.flow.live ≤ 1 := hs.le.trans (Nat.zero_le 1)
  by_cases hl : Loses E s a
  · exact (hloses hl).live_zero hle
  · rw [(hkeeps hl).live_eq hle, hs]

/-- **Every step, while the token is there.** -/
theorem Current.step {E : Setup} {h : List SendEvent} {s t : System} {a : Action}
    (hs : Current E h s) (ht : clientStep E s a = some t) :
    Current E (h ++ sendEvents s a) t ∨ Lost E (h ++ sendEvents s a) t := by
  obtain ⟨hloses, hkeeps⟩ := clientStep_flow E ht
  have hzero : Loses E s a → t.flow.live = 0 := fun hl => (hloses hl).live_zero hs.live.le
  have hone : ¬ Loses E s a → t.flow.live = 1 := fun hl =>
    ((hkeeps hl).live_eq hs.live.le).trans hs.live
  have hsilent : sendEvents s a = [] → Current E h t ∨ Lost E h t →
      Current E (h ++ sendEvents s a) t ∨ Lost E (h ++ sendEvents s a) t := by
    intro hnone
    rw [hnone, List.append_nil]
    exact id
  have hquiet : t.worker = s.worker → t.invocations = s.invocations →
      Current E (h ++ []) t ∨ Lost E (h ++ []) t := by
    intro hworker hinv
    rw [List.append_nil]
    by_cases hl : Loses E s a
    · exact .inr (hs.lost (hzero hl))
    · exact .inl (hs.quiet (hone hl) hworker hinv)
  cases clientStep_cases ht with
  | pressUpload => exact hquiet rfl rfl
  | startWork data hw _ => exact .inl (hs.startWork hw (hone id) rfl rfl)
  | semTake hw _ =>
    refine hsilent rfl ?_
    exact .inl (hs.stage (hone id) hw rfl rfl fun v hv => congrArg (chooseChunk E.slot) hv)
  | readOk hw =>
    refine hsilent rfl ?_
    exact .inl (hs.stage (hone Bool.noConfusion) hw rfl rfl
      fun v hv => congrArg (readChunk E.flash) hv)
  | readFails hw =>
    refine hsilent rfl ?_
    exact .inr (hs.lost (hzero rfl))
  | @encodeOk inv i u f hw hf =>
    refine hsilent rfl ?_
    refine .inl (hs.stage (hone (not_loses_encode hw hf)) hw rfl rfl fun v hv => ?_)
    obtain rfl : u = _ := hv
    exact ⟨rfl, hf⟩
  | @encodeFails ok inv i u hw hfails =>
    refine hsilent rfl ?_
    refine .inr (hs.lost (hzero ?_))
    exact hfails.imp id fun hf => ⟨_, hw, hf⟩
  | @commandOk ok inv i u f hw hok =>
    have hevents : sendEvents s (.command ok) = [.handed inv i f true] := by
      simp only [sendEvents, hw, hok]
    rw [hevents]
    exact .inl (hs.accepted (hone (by simp [Loses, hok])) hw rfl rfl)
  | @commandFails ok inv i u f hw hok =>
    have hevents : sendEvents s (.command ok) = [.handed inv i f false] := by
      simp only [sendEvents, hw, hok]
    rw [hevents]
    exact .inr (hs.refused (hzero hok) hw)
  | list => exact hquiet rfl rfl
  | @hash _ ok _ f ha _ _ =>
    rcases ha with rfl | rfl <;> exact hquiet rfl rfl
  | @notSent _ ok ha =>
    rcases ha with rfl | rfl | rfl <;> exact hquiet rfl rfl
  | @deliver p data _ =>
    exact hquiet (receive_uploads E s p data).1 (receive_uploads E s p data).2.1
  | connect => exact hquiet rfl rfl
  | disconnect => exact hquiet rfl rfl

/-- **Every step, when it is lost.**  Nothing is handed over any more. -/
theorem Lost.step {E : Setup} {h : List SendEvent} {s t : System} {a : Action}
    (hs : Lost E h s) (ht : clientStep E s a = some t) : Lost E (h ++ sendEvents s a) t := by
  obtain ⟨hsem, hfree⟩ := hs.stuck
  have hlive : t.flow.live = 0 := live_zero_step hs.live ht
  have hquiet : t.worker = s.worker → Lost E (h ++ []) t := by
    rw [List.append_nil]
    exact hs.quiet hlive
  cases clientStep_cases ht with
  | pressUpload => exact hquiet rfl
  | startWork data hw _ =>
    obtain ⟨n, whole, cut, stuck, rfl, hwhole, hcut, hstuck⟩ := hs.past
    obtain rfl : stuck = [] := hstuck.resolve_right fun hbusy => hbusy.1 hw
    exact ⟨hlive, n, whole, cut, [.started data], by simp [sendEvents], hwhole, hcut,
      .inr ⟨nofun, data, rfl⟩⟩
  | semTake hw hn =>
    rw [hsem] at hn
    cases hn
  | readOk hw => exact absurd ⟨_, hw, nofun⟩ hfree
  | readFails hw => exact absurd ⟨_, hw, nofun⟩ hfree
  | encodeOk hw _ => exact absurd ⟨_, hw, nofun⟩ hfree
  | encodeFails hw _ => exact absurd ⟨_, hw, nofun⟩ hfree
  | commandOk hw _ => exact absurd ⟨_, hw, nofun⟩ hfree
  | commandFails hw _ => exact absurd ⟨_, hw, nofun⟩ hfree
  | list => exact hquiet rfl
  | @hash _ ok _ f ha _ _ =>
    rcases ha with rfl | rfl <;> exact hquiet rfl
  | @notSent _ ok ha =>
    rcases ha with rfl | rfl | rfl <;> exact hquiet rfl
  | @deliver p data _ => exact hquiet (receive_uploads E s p data).1
  | connect => exact hquiet rfl
  | disconnect => exact hquiet rfl

/-- What the history of a run is, and the state in which it stops. -/
theorem current_or_lost (E : Setup) (as : List Action) :
    Current E ((client E).history sendEvents .start as) ((client E).last .start as) ∨
      Lost E ((client E).history sendEvents .start as) ((client E).last .start as) := by
  have h := Machine.history_of_step (M := client E) sendEvents
    (R := fun h s => Current E h s ∨ Lost E h s) ?_ (.inl (Current.start E)) as
  · exact h
  · intro h s a t hs ht
    rcases hs with hs | hs
    · exact hs.step ht
    · exact .inr (hs.step ht)

theorem Current.sequential {E : Setup} {h : List SendEvent} {s : System} (hs : Current E h s) :
    Sequential E h := by
  obtain ⟨n, whole, cut, hh, hwhole, hcut⟩ := hs.cut
  exact ⟨n, whole, cut, [], hh, hwhole, hcut, .inl rfl⟩

theorem Lost.sequential {E : Setup} {h : List SendEvent} {s : System} (hs : Lost E h s) :
    Sequential E h := by
  obtain ⟨n, whole, cut, stuck, hh, hwhole, hcut, hstuck⟩ := hs.past
  exact ⟨n, whole, cut, stuck, hh, hwhole, hcut, hstuck.imp id And.right⟩

/-- **The uploads of a run are the loop, one after the other.**  For every order of
the steps, whatever the buttons, the server and the link do. -/
theorem sequential_history (E : Setup) (as : List Action) :
    Sequential E ((client E).history sendEvents .start as) :=
  (current_or_lost E as).elim Current.sequential Lost.sequential

end Client
end NrfSamples
