/-
# The buttons

`button_handler` in `bootloader_samples/client_smp/smp_client_ble/src/main.c` is
called with the state of the buttons and with those that have changed, one bit for
each.  A button that has changed and is pressed sends a list, test or confirm
command, or submits `send_upload2`.

`bt_dfu_smp` takes one command at a time, so of several buttons pressed at once
one gets its command through.  `buttonHandler_eq`: it is the first of list, test
and confirm whose command can be sent, each of the others prints its error, and
the upload is submitted in any case.  `buttonClient_always`: a call of the handler
is a run of the client, so what holds along every run of the client holds whatever
is pressed together.
-/

import NrfSamples.Client.Progress

namespace NrfSamples
namespace Client

open Cbor Zcbor Smp Transition

/-- `KEY_LIST_MASK`: `DK_BTN1_MSK`. -/
def keyListMask : UInt32 := 1

/-- `KEY_UPLOAD_MASK`: `DK_BTN2_MSK`. -/
def keyUploadMask : UInt32 := 2

/-- `KEY_TEST_MASK`: `DK_BTN3_MSK`. -/
def keyTestMask : UInt32 := 4

/-- `KEY_CONFIRM_MASK`: `DK_BTN4_MSK`. -/
def keyConfirmMask : UInt32 := 8

/-- What the three calls of `bt_dfu_smp_command` say, as far as the client does not
decide it. -/
structure CommandResults where
  list : Bool
  test : Bool
  confirm : Bool

/-- The client, and the formats of the lines printed. -/
structure Handled where
  sys : System
  log : List String

/-- `button_image_list`. -/
def buttonImageList (state ok : Bool) (h : Handled) : Handled :=
  if state then
    if h.sys.accepts ok then { h with sys := { h.sys with pending := some ⟨.image, []⟩ } }
    else { h with log := h.log ++ ["Image list command send error (err: %d)\n"] }
  else h

/-- `button_upload`. -/
def buttonUpload (state : Bool) (h : Handled) : Handled :=
  if state then { h with sys := { h.sys with queued := true } } else h

/-- `button_test` and `button_confirm`: the frame may not be encoded, and the command
may not be accepted. -/
def buttonHash (frame : List UInt8 → Option (List UInt8)) (encodeError sendError : String)
    (state ok : Bool) (h : Handled) : Handled :=
  if state then
    match frame h.sys.statics.hashSecondary with
    | some f =>
        ⟨h.sys.sendHash (some f) ok, if h.sys.accepts ok then h.log else h.log ++ [sendError]⟩
    | none => { h with log := h.log ++ [encodeError, sendError] }
  else h

/-- `button_test`. -/
def buttonTest (E : Setup) : Bool → Bool → Handled → Handled :=
  buttonHash (sendSmpTest E.enc) "Failed to encode SMP test packet, err: %d\n"
    "Test command send error (err: %d)\n"

/-- `button_confirm`. -/
def buttonConfirm (E : Setup) : Bool → Bool → Handled → Handled :=
  buttonHash (sendSmpConfirm E.enc) "Failed to encode SMP confirm packet, err: %d\n"
    "Confirm command send error (err: %d)\n"

/-- `button_handler`. -/
def buttonHandler (E : Setup) (buttonState hasChanged : UInt32) (c : CommandResults)
    (s : System) : Handled :=
  let h : Handled := ⟨s, []⟩
  let h :=
    if hasChanged &&& keyListMask ≠ 0 then
      buttonImageList (buttonState &&& keyListMask != 0) c.list h
    else h
  let h :=
    if hasChanged &&& keyUploadMask ≠ 0 then buttonUpload (buttonState &&& keyUploadMask != 0) h
    else h
  let h :=
    if hasChanged &&& keyTestMask ≠ 0 then
      buttonTest E (buttonState &&& keyTestMask != 0) c.test h
    else h
  if hasChanged &&& keyConfirmMask ≠ 0 then
    buttonConfirm E (buttonState &&& keyConfirmMask != 0) c.confirm h
  else h

/-! ### One command for three buttons -/

/-- The commands that a button sends right away. -/
inductive KeyCommand
  | list
  | test
  | confirm
  deriving DecidableEq, Repr

/-- The frame of a command, unless it cannot be encoded. -/
def KeyCommand.frame (E : Setup) (s : System) : KeyCommand → Option (List UInt8)
  | .list => some sendSmpList
  | .test => sendSmpTest E.enc s.statics.hashSecondary
  | .confirm => sendSmpConfirm E.enc s.statics.hashSecondary

/-- What a command prints when it is not sent. -/
def KeyCommand.errors (E : Setup) (s : System) : KeyCommand → List String
  | .list => ["Image list command send error (err: %d)\n"]
  | .test =>
      if (sendSmpTest E.enc s.statics.hashSecondary).isSome then
        ["Test command send error (err: %d)\n"]
      else
        ["Failed to encode SMP test packet, err: %d\n", "Test command send error (err: %d)\n"]
  | .confirm =>
      if (sendSmpConfirm E.enc s.statics.hashSecondary).isSome then
        ["Confirm command send error (err: %d)\n"]
      else
        ["Failed to encode SMP confirm packet, err: %d\n", "Confirm command send error (err: %d)\n"]

/-- The client when a command is sent. -/
def KeyCommand.send (E : Setup) (s : System) (k : KeyCommand) : System :=
  { s with
    pending := some ⟨.image, []⟩
    hashFrames :=
      match k, k.frame E s with
      | .list, _ => s.hashFrames
      | _, some f => (f, s.lastImages) :: s.hashFrames
      | _, none => s.hashFrames }

def KeyCommand.mask : KeyCommand → UInt32
  | .list => keyListMask
  | .test => keyTestMask
  | .confirm => keyConfirmMask

def KeyCommand.result (c : CommandResults) : KeyCommand → Bool
  | .list => c.list
  | .test => c.test
  | .confirm => c.confirm

/-- A button has changed and is pressed. -/
def pressed (mask buttonState hasChanged : UInt32) : Bool :=
  hasChanged &&& mask != 0 && buttonState &&& mask != 0

/-- A command can be sent. -/
def KeyCommand.sends (E : Setup) (c : CommandResults) (s : System) (k : KeyCommand) : Bool :=
  (k.frame E s).isSome && s.accepts (k.result c)

/-- What a button does whose command goes out right away. -/
def Handled.press (E : Setup) (c : CommandResults) (p : KeyCommand → Bool) (h : Handled)
    (k : KeyCommand) : Handled :=
  if p k then
    if k.sends E c h.sys then { h with sys := k.send E h.sys }
    else { h with log := h.log ++ k.errors E h.sys }
  else h

section Press

variable (E : Setup) (c : CommandResults) (p : KeyCommand → Bool)

theorem buttonImageList_eq (state : Bool) (h : Handled) :
    buttonImageList state c.list h = h.press E c (fun _ => state) .list := by
  rfl

theorem buttonTest_eq (state : Bool) (h : Handled) :
    buttonTest E state c.test h = h.press E c (fun _ => state) .test := by
  unfold buttonTest buttonHash Handled.press
  cases state with
  | false => rfl
  | true =>
    cases hf : sendSmpTest E.enc h.sys.statics.hashSecondary with
    | none => simp [KeyCommand.sends, KeyCommand.frame, KeyCommand.errors, hf]
    | some f =>
      cases hok : h.sys.accepts c.test <;>
        simp [KeyCommand.sends, KeyCommand.frame, KeyCommand.errors, KeyCommand.result,
          KeyCommand.send, System.sendHash, hf, hok]

theorem buttonConfirm_eq (state : Bool) (h : Handled) :
    buttonConfirm E state c.confirm h = h.press E c (fun _ => state) .confirm := by
  unfold buttonConfirm buttonHash Handled.press
  cases state with
  | false => rfl
  | true =>
    cases hf : sendSmpConfirm E.enc h.sys.statics.hashSecondary with
    | none => simp [KeyCommand.sends, KeyCommand.frame, KeyCommand.errors, hf]
    | some f =>
      cases hok : h.sys.accepts c.confirm <;>
        simp [KeyCommand.sends, KeyCommand.frame, KeyCommand.errors, KeyCommand.result,
          KeyCommand.send, System.sendHash, hf, hok]

/-- A button that has not changed, and one that is released, does nothing. -/
theorem press_of_changed (mask b ch : UInt32) (k : KeyCommand) (h : Handled) :
    (if ch &&& mask ≠ 0 then h.press E c (fun _ => b &&& mask != 0) k else h) =
      h.press E c (fun _ => pressed mask b ch) k := by
  unfold Handled.press pressed
  by_cases hch : ch &&& mask = 0 <;> simp [hch]

/-- The upload is submitted. -/
def Handled.submit (state : Bool) (h : Handled) : Handled :=
  { h with sys := { h.sys with queued := h.sys.queued || state } }

theorem buttonUpload_eq (b ch : UInt32) (h : Handled) :
    (if ch &&& keyUploadMask ≠ 0 then buttonUpload (b &&& keyUploadMask != 0) h else h) =
      h.submit (pressed keyUploadMask b ch) := by
  have hoff : h.submit false = h := by simp [Handled.submit]
  unfold buttonUpload pressed
  by_cases hch : ch &&& keyUploadMask = 0
  · simp [hch, hoff]
  · by_cases hb : b &&& keyUploadMask = 0
    · simp [hch, hb, hoff]
    · simp [hch, hb, Handled.submit]

/-- Submitting the upload and sending a command do not get into each other's way. -/
theorem press_submit (state : Bool) (h : Handled) (k : KeyCommand) :
    (h.submit state).press E c p k = (h.press E c p k).submit state := by
  have hsends : k.sends E c (h.submit state).sys = k.sends E c h.sys := by cases k <;> rfl
  have herrors : k.errors E (h.submit state).sys = k.errors E h.sys := by cases k <;> rfl
  unfold Handled.press
  rw [hsends, herrors]
  split_ifs
  · cases k <;> rfl
  · rfl
  · rfl

/-- **The handler**: the three commands in this order, and the upload. -/
theorem buttonHandler_press (b ch : UInt32) (s : System) :
    buttonHandler E b ch c s =
      ([.list, .test, .confirm].foldl
        (Handled.press E c fun k => pressed k.mask b ch) ⟨s, []⟩).submit
          (pressed keyUploadMask b ch) := by
  unfold buttonHandler
  simp only [buttonImageList_eq E, buttonTest_eq, buttonConfirm_eq, press_of_changed,
    buttonUpload_eq]
  simp only [press_submit]
  rfl

end Press

/-! ### Which command is sent -/

section Presses

variable {E : Setup} {c : CommandResults} {p : KeyCommand → Bool}

/-- After a command is sent no other one can be. -/
theorem sends_send (E : Setup) (c : CommandResults) (s : System) (j k : KeyCommand) :
    j.sends E c (k.send E s) = false := by
  simp [KeyCommand.sends, KeyCommand.send, System.accepts]

theorem errors_send (E : Setup) (s : System) (j k : KeyCommand) :
    j.errors E (k.send E s) = j.errors E s := by
  cases j <;> rfl

/-- While none of the commands can be sent, each that is pressed prints its error. -/
theorem presses_of_not_sends {ks : List KeyCommand} {h : Handled}
    (hno : ∀ k ∈ ks, p k = true → k.sends E c h.sys = false) :
    ks.foldl (Handled.press E c p) h =
      { h with log := h.log ++ (ks.filter p).flatMap (KeyCommand.errors E h.sys) } := by
  induction ks generalizing h with
  | nil => simp
  | cons k ks ih =>
    have hrest : ∀ j ∈ ks, p j = true → j.sends E c h.sys = false :=
      fun j hj => hno j (List.mem_cons_of_mem _ hj)
    rw [List.foldl_cons, Handled.press, List.filter_cons]
    cases hp : p k with
    | false =>
      simp only [Bool.false_eq_true, if_false]
      exact ih hrest
    | true =>
      simp only [hno k List.mem_cons_self hp, Bool.false_eq_true, if_true, if_false]
      refine (ih (h := ⟨h.sys, h.log ++ k.errors E h.sys⟩) hrest).trans ?_
      rw [List.flatMap_cons, List.append_assoc]

/-- **Of several commands the first that can be sent is sent**, and each of the
others that are pressed prints its error. -/
theorem presses_eq {ks : List KeyCommand} (hks : ks.Nodup) (h : Handled) :
    ks.foldl (Handled.press E c p) h =
      match ks.find? fun k => p k && k.sends E c h.sys with
      | none => { h with log := h.log ++ (ks.filter p).flatMap (KeyCommand.errors E h.sys) }
      | some k =>
          ⟨k.send E h.sys,
            h.log ++ (ks.filter fun j => p j && j != k).flatMap (KeyCommand.errors E h.sys)⟩ := by
  induction ks generalizing h with
  | nil => simp
  | cons k ks ih =>
    obtain ⟨hk, hnodup⟩ := List.nodup_cons.1 hks
    rw [List.foldl_cons, List.find?_cons, Handled.press]
    cases hp : p k with
    | false =>
      simp only [Bool.false_and, Bool.false_eq_true, if_false, List.filter_cons, hp]
      exact ih hnodup h
    | true =>
      cases hsends : k.sends E c h.sys with
      | true =>
        -- what follows finds a command pending
        have hrest : ks.foldl (Handled.press E c p) { h with sys := k.send E h.sys } = _ :=
          presses_of_not_sends fun j _ _ => sends_send E c h.sys j k
        have hothers : (k :: ks).filter (fun j => p j && j != k) = ks.filter p := by
          rw [List.filter_cons, bne_self_eq_false, Bool.and_false]
          simp only [Bool.false_eq_true, if_false]
          refine List.filter_congr fun j hj => ?_
          have hne : (j != k) = true := by
            rw [bne_iff_ne]
            rintro rfl
            exact hk hj
          rw [hne, Bool.and_true]
        have herrors : KeyCommand.errors E (k.send E h.sys) = KeyCommand.errors E h.sys :=
          funext fun j => errors_send E h.sys j k
        simp only [Bool.true_and, if_true]
        rw [hrest, herrors, hothers]
      | false =>
        simp only [Bool.and_false, if_true, Bool.false_eq_true, if_false]
        rw [ih hnodup]
        dsimp only
        cases hfind : ks.find? fun k => p k && k.sends E c h.sys with
        | none => simp [hp, List.append_assoc]
        | some j =>
          have hne : (k != j) = true := by
            rw [bne_iff_ne]
            rintro rfl
            have hj := List.find?_some hfind
            rw [hsends, Bool.and_false] at hj
            cases hj
          simp [hp, hne, List.append_assoc]

end Presses

/-- The command that a call of the handler sends, if any. -/
def sentCommand (E : Setup) (b ch : UInt32) (c : CommandResults) (s : System) :
    Option KeyCommand :=
  [.list, .test, .confirm].find? fun k : KeyCommand => pressed k.mask b ch && k.sends E c s

/-- The commands that are pressed and not sent. -/
def unsentCommands (b ch : UInt32) (sent : Option KeyCommand) : List KeyCommand :=
  [.list, .test, .confirm].filter fun k : KeyCommand => pressed k.mask b ch && some k != sent

/-- **What a call of the handler does.**  For every state of the buttons and of the
client: the first command that can be sent is sent, the others that are pressed
print their errors, and the upload is submitted if its button is pressed. -/
theorem buttonHandler_eq (E : Setup) (b ch : UInt32) (c : CommandResults) (s : System) :
    buttonHandler E b ch c s =
      ⟨{ ((sentCommand E b ch c s).elim s (KeyCommand.send E s)) with
          queued := s.queued || pressed keyUploadMask b ch },
        (unsentCommands b ch (sentCommand E b ch c s)).flatMap (KeyCommand.errors E s)⟩ := by
  rw [buttonHandler_press, presses_eq (by decide)]
  rw [sentCommand, unsentCommands]
  dsimp only
  cases hfind : [KeyCommand.list, KeyCommand.test, KeyCommand.confirm].find?
      fun k => pressed k.mask b ch && k.sends E c s with
  | none =>
    have hall : (fun k : KeyCommand => pressed k.mask b ch && some k != none) =
        fun k => pressed k.mask b ch := funext fun k => Bool.and_true _
    rw [hall]
    rfl
  | some k => rfl

/-! ### The client behind its buttons -/

/-- What happens to the client: a call of `button_handler`, or a step of something
else. -/
inductive Input
  | buttons (buttonState hasChanged : UInt32) (c : CommandResults)
  | other (a : Action)

/-- A button. -/
def Action.isPress : Action → Bool
  | .pressUpload | .pressList _ | .pressTest _ | .pressConfirm _ => true
  | _ => false

/-- The client, whose buttons are those of the handler. -/
def buttonClient (E : Setup) : Machine System Input where
  init s := s = .start
  step s
    | .buttons b ch c => some (buttonHandler E b ch c s).sys
    | .other a => if a.isPress then none else clientStep E s a

def KeyCommand.action (ok : Bool) : KeyCommand → Action
  | .list => .pressList ok
  | .test => .pressTest ok
  | .confirm => .pressConfirm ok

/-- The steps of the client in a call of the handler. -/
def handlerActions (b ch : UInt32) (c : CommandResults) : List Action :=
  (([.list, .test, .confirm].filter fun k : KeyCommand => pressed k.mask b ch).map
      fun k => k.action (k.result c)) ++
    if pressed keyUploadMask b ch then [.pressUpload] else []

/-- A button that is pressed is a step of the client. -/
theorem clientStep_press (E : Setup) (c : CommandResults) (p : KeyCommand → Bool) (k : KeyCommand)
    (hp : p k = true) (h : Handled) :
    clientStep E h.sys (k.action (k.result c)) = some (h.press E c p k).sys := by
  unfold Handled.press
  rw [hp, if_pos rfl]
  cases k with
  | list =>
    cases hok : h.sys.accepts c.list <;>
      simp [KeyCommand.action, KeyCommand.result, clientStep, KeyCommand.sends, KeyCommand.frame,
        KeyCommand.send, hok]
  | test =>
    cases hf : sendSmpTest E.enc h.sys.statics.hashSecondary with
    | none =>
      simp [KeyCommand.action, clientStep, KeyCommand.sends, KeyCommand.frame, System.sendHash, hf]
    | some f =>
      cases hok : h.sys.accepts c.test <;>
        simp [KeyCommand.action, KeyCommand.result, clientStep, KeyCommand.sends,
          KeyCommand.frame, KeyCommand.send, System.sendHash, hf, hok]
  | confirm =>
    cases hf : sendSmpConfirm E.enc h.sys.statics.hashSecondary with
    | none =>
      simp [KeyCommand.action, clientStep, KeyCommand.sends, KeyCommand.frame, System.sendHash, hf]
    | some f =>
      cases hok : h.sys.accepts c.confirm <;>
        simp [KeyCommand.action, KeyCommand.result, clientStep, KeyCommand.sends,
          KeyCommand.frame, KeyCommand.send, System.sendHash, hf, hok]

/-- Several of them are a run. -/
theorem after_presses (E : Setup) (c : CommandResults) (p : KeyCommand → Bool)
    (ks : List KeyCommand) (h : Handled) :
    (client E).after h.sys ((ks.filter p).map fun k => k.action (k.result c)) =
      some (ks.foldl (Handled.press E c p) h).sys := by
  induction ks generalizing h with
  | nil => rfl
  | cons k ks ih =>
    rw [List.filter_cons, List.foldl_cons]
    cases hp : p k with
    | false =>
      rw [if_neg Bool.false_ne_true, ih h]
      simp only [Handled.press, hp, Bool.false_eq_true, if_false]
    | true =>
      rw [if_pos rfl, List.map_cons, Machine.after]
      change (clientStep E h.sys _).bind _ = _
      rw [clientStep_press E c p k hp h]
      exact ih _

/-- **A call of the handler is a run of the client.** -/
theorem after_handlerActions (E : Setup) (b ch : UInt32) (c : CommandResults) (s : System) :
    (client E).after s (handlerActions b ch c) = some (buttonHandler E b ch c s).sys := by
  have hpresses := after_presses E c (fun k => pressed k.mask b ch) [.list, .test, .confirm] ⟨s, []⟩
  rw [handlerActions, Machine.after_append, buttonHandler_press]
  dsimp only at hpresses
  rw [hpresses, Option.bind_some]
  cases pressed keyUploadMask b ch with
  | false => simp [Machine.after, Handled.submit]
  | true => simp [Machine.after, client, clientStep, Handled.submit]

/-- **What holds along every run of the client holds behind its buttons.**  For every
property of the states, and whatever is pressed and released. -/
theorem buttonClient_always (E : Setup) (P : System → Prop)
    (h : ∀ as, (client E).Always P .start as) (is : List Input) :
    (buttonClient E).Always P .start is := by
  refine Machine.always_of_runs (M := client E) (f := id) ?_ h
  intro s i t ht
  cases i with
  | buttons b ch c =>
    obtain rfl := Option.some.inj ht
    exact ⟨_, after_handlerActions E b ch c s⟩
  | other a =>
    simp only [buttonClient] at ht
    split_ifs at ht
    exact ⟨[a], by rw [id_eq, Machine.after]; change (clientStep E s a).bind _ = _; rw [ht]; rfl⟩

/-- All four buttons at once, and then the steps of the upload: there is one token. -/
theorem buttonClient_live :
    (buttonClient sampleSetup).Always (fun s => s.flow.live ≤ 1) .start
      [.other .connect, .buttons 15 15 ⟨true, true, true⟩,
        .other (.startWork (Vector.replicate (chunkSize + 1) 0)), .other .semTake] :=
  buttonClient_always sampleSetup _
    (Machine.always_iff_after.2 fun _ _ hs => live_le_one sampleSetup hs) _

end Client
end NrfSamples
