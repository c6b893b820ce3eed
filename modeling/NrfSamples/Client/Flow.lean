/-
# The token of an upload

What `upload_sem` is for in
`bootloader_samples/client_smp/smp_client_ble/src/main.c`, without the bytes: the
semaphore holds one token; an invocation of `send_upload2` takes it before a
chunk, and the response to the chunk gives it back.  A step either keeps the
token or loses it (`FlowStep`).

There is never more than one token, wherever it is (`Flow.Inv`), so at most one
chunk is unanswered and the next one waits for the answer (`Controlled`).  A step
that keeps the token leaves `live` as it is, a step that loses it makes it zero
(`FlowStep.live_eq`, `FlowStep.live_zero`).
-/

import Mathlib.Data.List.Basic

namespace NrfSamples
namespace Client

/-- What happens to chunk `chunk` of invocation `inv`: it is handed to
`bt_dfu_smp_command`; the command is accepted; its complete response gives the
semaphore, or does not. -/
inductive FlowEvent
  | handed (inv chunk : ℕ)
  | sent (inv chunk : ℕ)
  | gave (inv chunk : ℕ)
  | silent (inv chunk : ℕ)
  deriving DecidableEq, Repr

/-- Where the invocation of `send_upload2` is, if there is one. -/
inductive Phase
  | idle
  | waiting (inv chunk : ℕ)
  | holding (inv chunk : ℕ)
  deriving DecidableEq, Repr

/-- The count of the semaphore, the invocation, the chunk whose response is
awaited, and what has happened, the latest first. -/
structure Flow where
  count : ℕ
  phase : Phase
  outstanding : Option (ℕ × ℕ)
  log : List FlowEvent

/-- The tokens that an invocation holds. -/
def Phase.held : Phase → ℕ
  | .holding _ _ => 1
  | _ => 0

/-- The tokens, wherever they are. -/
def Flow.live (f : Flow) : ℕ :=
  f.count + f.phase.held + if f.outstanding.isSome then 1 else 0

/-- One step; `lost` says whether it loses the token. -/
inductive FlowStep : (lost : Bool) → Flow → Flow → Prop
  | stay (f : Flow) : FlowStep false f f
  | start {f : Flow} (inv : ℕ) : f.phase = .idle →
      FlowStep false f { f with phase := .waiting inv 0 }
  | take {f : Flow} {n inv i : ℕ} : f.phase = .waiting inv i → f.count = n + 1 →
      FlowStep false f { f with count := n, phase := .holding inv i }
  | fail {f : Flow} {inv i : ℕ} : f.phase = .holding inv i →
      FlowStep true f { f with phase := .idle }
  | refuse {f : Flow} {inv i : ℕ} : f.phase = .holding inv i →
      FlowStep true f { f with phase := .idle, log := .handed inv i :: f.log }
  | send {f : Flow} {inv i : ℕ} (last : Bool) : f.phase = .holding inv i →
      f.outstanding = none →
      FlowStep false f { f with
        phase := if last then .idle else .waiting inv (i + 1)
        outstanding := some (inv, i)
        log := .sent inv i :: .handed inv i :: f.log }
  | gave {f : Flow} {inv i : ℕ} : f.outstanding = some (inv, i) →
      FlowStep false f { f with
        count := min 1 (f.count + 1), outstanding := none, log := .gave inv i :: f.log }
  | silent {f : Flow} {inv i : ℕ} : f.outstanding = some (inv, i) →
      FlowStep true f { f with outstanding := none, log := .silent inv i :: f.log }
  | drop {f : Flow} {inv i : ℕ} : f.outstanding = some (inv, i) →
      FlowStep true f { f with outstanding := none }

/-- A step that keeps the token. -/
theorem FlowStep.live_eq {f g : Flow} (h : FlowStep false f g) (hf : f.live ≤ 1) :
    g.live = f.live := by
  cases h with
  | stay => rfl
  | start inv hp => simp [Flow.live, hp, Phase.held]
  | take hp hc => simp only [Flow.live, hp, hc, Phase.held]
  | send last hp ho =>
    simp only [Flow.live, hp, ho, Phase.held, Option.isSome_some, Option.isSome_none]
    cases last <;> rfl
  | gave ho =>
    simp only [Flow.live, ho, Option.isSome_some, Option.isSome_none, if_true] at hf ⊢
    rw [Nat.min_eq_right (by omega)]
    simp only [Bool.false_eq_true, if_false]
    omega

/-- A step that loses it. -/
theorem FlowStep.live_zero {f g : Flow} (h : FlowStep true f g) (hf : f.live ≤ 1) :
    g.live = 0 := by
  cases h with
  | fail hp =>
    simp only [Flow.live, hp, Phase.held] at hf ⊢
    omega
  | refuse hp =>
    simp only [Flow.live, hp, Phase.held] at hf ⊢
    omega
  | silent ho =>
    simp only [Flow.live, ho, Option.isSome_some, Option.isSome_none, if_true] at hf ⊢
    simp only [Bool.false_eq_true, if_false]
    omega
  | drop ho =>
    simp only [Flow.live, ho, Option.isSome_some, Option.isSome_none, if_true] at hf ⊢
    simp only [Bool.false_eq_true, if_false]
    omega

theorem FlowStep.live_le {lost : Bool} {f g : Flow} (h : FlowStep lost f g) (hf : f.live ≤ 1) :
    g.live ≤ f.live := by
  cases lost with
  | false => exact Nat.le_of_eq (h.live_eq hf)
  | true => rw [h.live_zero hf]; exact Nat.zero_le _

/-! ### Flow control -/

/-- The chunks that were sent. -/
def sentCount (log : List FlowEvent) : ℕ :=
  log.countP fun e => match e with | .sent _ _ => true | _ => false

/-- The chunks whose complete response was delivered. -/
def answeredCount (log : List FlowEvent) : ℕ :=
  log.countP fun e => match e with | .gave _ _ => true | .silent _ _ => true | _ => false

/-- What has happened, the latest first, keeps to flow control: at most one chunk
that was sent is unanswered; a chunk after the first of its invocation is handed
over only after the response to the one before gave the semaphore; and none is
handed over after a response that did not give it. -/
structure Controlled (log : List FlowEvent) : Prop where
  single : sentCount log ≤ answeredCount log + 1
  next : ∀ later earlier inv i, log = later ++ .handed inv (i + 1) :: earlier →
    .gave inv i ∈ earlier
  final : ∀ later earlier inv i, log = later ++ .silent inv i :: earlier →
    ∀ inv' i', .handed inv' i' ∉ later

/-- What every step keeps. -/
structure Flow.Inv (f : Flow) : Prop where
  live : f.live ≤ 1
  single : sentCount f.log + f.count + f.phase.held ≤ answeredCount f.log + 1
  waiting : ∀ inv i, f.phase = .waiting inv (i + 1) →
    .gave inv i ∈ f.log ∨ f.outstanding = some (inv, i) ∨ f.live = 0
  holding : ∀ inv i, f.phase = .holding inv (i + 1) → .gave inv i ∈ f.log
  silent : ∀ inv i, .silent inv i ∈ f.log → f.live = 0
  next : ∀ later earlier inv i, f.log = later ++ .handed inv (i + 1) :: earlier →
    .gave inv i ∈ earlier
  final : ∀ later earlier inv i, f.log = later ++ .silent inv i :: earlier →
    ∀ inv' i', .handed inv' i' ∉ later

theorem Flow.Inv.controlled {f : Flow} (h : f.Inv) : Controlled f.log where
  single := by have := h.single; omega
  next := h.next
  final := h.final

/-- A chunk handed over, in the order of what happens. -/
theorem next_cons {e : FlowEvent} {log : List FlowEvent}
    (h : ∀ later earlier inv i, log = later ++ .handed inv (i + 1) :: earlier →
      .gave inv i ∈ earlier)
    (he : ∀ inv i, e = .handed inv (i + 1) → .gave inv i ∈ log)
    (later earlier : List FlowEvent) (inv i : ℕ)
    (heq : e :: log = later ++ .handed inv (i + 1) :: earlier) : .gave inv i ∈ earlier := by
  cases later with
  | nil =>
    obtain ⟨rfl, rfl⟩ := List.cons.inj heq
    exact he inv i rfl
  | cons d later => exact h later earlier inv i (List.cons.inj heq).2

/-- A response that does not give the semaphore, in the order of what happens. -/
theorem final_cons {e : FlowEvent} {log : List FlowEvent}
    (h : ∀ later earlier inv i, log = later ++ .silent inv i :: earlier →
      ∀ inv' i', .handed inv' i' ∉ later)
    (he : ∀ inv' i', e = .handed inv' i' → ∀ inv i, .silent inv i ∉ log)
    (later earlier : List FlowEvent) (inv i : ℕ)
    (heq : e :: log = later ++ .silent inv i :: earlier) (inv' i' : ℕ) :
    .handed inv' i' ∉ later := by
  cases later with
  | nil => exact List.not_mem_nil
  | cons d later =>
    obtain ⟨rfl, hlog⟩ := List.cons.inj heq
    intro hmem
    rcases List.mem_cons.1 hmem with hd | hmem
    · exact he inv' i' hd.symm inv i (by rw [hlog]; simp)
    · exact h later earlier inv i hlog inv' i' hmem

section Step

variable {f : Flow} (hf : f.Inv)

include hf

theorem Flow.Inv.live_step {lost : Bool} {g : Flow} (h : FlowStep lost f g) : g.live ≤ 1 :=
  Nat.le_trans (h.live_le hf.live) hf.live

/-- After a response that did not give the semaphore no step brings the token back. -/
theorem Flow.Inv.silent_step {lost : Bool} {g : Flow} (h : FlowStep lost f g) {inv i : ℕ}
    (hmem : .silent inv i ∈ f.log) : g.live = 0 := by
  have hzero := hf.silent inv i hmem
  have hle := h.live_le hf.live
  omega

/-- Nobody holds the token after such a response. -/
theorem Flow.Inv.silent_not_mem {inv i : ℕ} (hp : f.phase = .holding inv i) (inv' i' : ℕ) :
    .silent inv' i' ∉ f.log := by
  intro hmem
  have hzero := hf.silent inv' i' hmem
  rw [Flow.live, hp, Phase.held] at hzero
  omega

/-- A chunk is handed over only after the response to the one before it. -/
theorem Flow.Inv.next_handed {inv i : ℕ} (hp : f.phase = .holding inv i) (inv' i' : ℕ)
    (h : FlowEvent.handed inv i = .handed inv' (i' + 1)) : .gave inv' i' ∈ f.log := by
  obtain ⟨rfl, rfl⟩ := FlowEvent.handed.inj h
  exact hf.holding _ _ hp

theorem Flow.Inv.start (inv : ℕ) (hp : f.phase = .idle) :
    Flow.Inv { f with phase := .waiting inv 0 } := by
  have hstep := FlowStep.start inv hp
  have hsingle := hf.single
  rw [hp] at hsingle
  exact { hf with
    live := hf.live_step hstep
    single := hsingle
    waiting := fun inv' i h => by cases h
    holding := fun inv' i h => by cases h
    silent := fun inv' i h => hf.silent_step hstep h }

/-- The token was in the semaphore, so no response is awaited. -/
theorem Flow.Inv.take {n inv i : ℕ} (hp : f.phase = .waiting inv i) (hc : f.count = n + 1) :
    Flow.Inv { f with count := n, phase := .holding inv i } := by
  have hstep := FlowStep.take hp hc
  have hsingle := hf.single
  rw [hp, hc] at hsingle
  refine { hf with
    live := hf.live_step hstep
    single := hsingle
    waiting := fun inv' i h => by cases h
    holding := ?_
    silent := fun inv' i h => hf.silent_step hstep h }
  intro inv' i' h
  obtain ⟨rfl, rfl⟩ := Phase.holding.inj h
  have hpos : f.live = n + 1 + if f.outstanding.isSome then 1 else 0 := by
    rw [Flow.live, hp, hc]
    rfl
  have hlive := hf.live
  rcases hf.waiting _ i' hp with hgave | hout | hzero
  · exact hgave
  · rw [hout] at hpos
    simp only [Option.isSome_some, if_true] at hpos
    omega
  · omega

theorem Flow.Inv.fail {inv i : ℕ} (hp : f.phase = .holding inv i) :
    Flow.Inv { f with phase := .idle } := by
  have hstep := FlowStep.fail hp
  have hsingle := hf.single
  exact { hf with
    live := hf.live_step hstep
    single := by rw [hp] at hsingle; simp only [Phase.held] at hsingle ⊢; omega
    waiting := fun inv' i h => by cases h
    holding := fun inv' i h => by cases h
    silent := fun inv' i h => hf.silent_step hstep h }

theorem Flow.Inv.refuse {inv i : ℕ} (hp : f.phase = .holding inv i) :
    Flow.Inv { f with phase := .idle, log := .handed inv i :: f.log } := by
  have hstep := FlowStep.refuse hp
  have hsingle := hf.single
  refine {
    live := hf.live_step hstep
    single := ?_
    waiting := fun inv' i h => by cases h
    holding := fun inv' i h => by cases h
    silent := fun inv' i' h => hf.silent_step hstep (by simpa using h)
    next := next_cons hf.next (hf.next_handed hp)
    final := final_cons hf.final fun _ _ _ => hf.silent_not_mem hp }
  rw [hp] at hsingle
  simp only [sentCount, answeredCount, List.countP_cons, Phase.held] at hsingle ⊢
  omega

theorem Flow.Inv.send {inv i : ℕ} (last : Bool) (hp : f.phase = .holding inv i)
    (ho : f.outstanding = none) :
    Flow.Inv { f with
      phase := if last then .idle else .waiting inv (i + 1)
      outstanding := some (inv, i)
      log := .sent inv i :: .handed inv i :: f.log } := by
  have hstep := FlowStep.send last hp ho
  have hsingle := hf.single
  refine {
    live := hf.live_step hstep
    single := ?_
    waiting := ?_
    holding := ?_
    silent := fun inv' i' h => hf.silent_step hstep (by simpa using h)
    next := next_cons (next_cons hf.next (hf.next_handed hp)) fun _ _ h => by cases h
    final := final_cons (final_cons hf.final fun _ _ _ => hf.silent_not_mem hp) fun _ _ h => by
      cases h }
  · rw [hp] at hsingle
    simp only [sentCount, answeredCount, List.countP_cons, Phase.held] at hsingle ⊢
    cases last <;> simp only [Bool.false_eq_true, if_false, if_true] <;> omega
  · intro inv' i' h
    cases last with
    | true => cases h
    | false =>
      obtain ⟨rfl, hi⟩ := Phase.waiting.inj h
      obtain rfl : i = i' := by omega
      exact .inr (.inl rfl)
  · intro inv' i' h
    cases last <;> cases h

theorem Flow.Inv.gave {inv i : ℕ} (ho : f.outstanding = some (inv, i)) :
    Flow.Inv { f with
      count := min 1 (f.count + 1), outstanding := none, log := .gave inv i :: f.log } := by
  have hstep := FlowStep.gave ho
  have hsingle := hf.single
  refine {
    live := hf.live_step hstep
    single := ?_
    waiting := ?_
    holding := fun inv' i' h => List.mem_cons_of_mem _ (hf.holding inv' i' h)
    silent := fun inv' i' h => hf.silent_step hstep (by simpa using h)
    next := next_cons hf.next fun _ _ h => by cases h
    final := final_cons hf.final fun _ _ h => by cases h }
  · simp only [sentCount, answeredCount, List.countP_cons] at hsingle ⊢
    simp only [Bool.false_eq_true, if_false, if_true]
    omega
  · intro inv' i' h
    rcases hf.waiting inv' i' h with hgave | hout | hzero
    · exact .inl (List.mem_cons_of_mem _ hgave)
    · rw [ho] at hout
      obtain ⟨rfl, rfl⟩ := Prod.mk.inj (Option.some.inj hout)
      exact .inl List.mem_cons_self
    · refine .inr (.inr (Nat.le_zero.1 ?_))
      exact Nat.le_trans (hstep.live_le hf.live) (Nat.le_of_eq hzero)

theorem Flow.Inv.silentStep {inv i : ℕ} (ho : f.outstanding = some (inv, i)) :
    Flow.Inv { f with outstanding := none, log := .silent inv i :: f.log } := by
  have hzero := (FlowStep.silent ho).live_zero hf.live
  have hsingle := hf.single
  refine {
    live := by omega
    single := ?_
    waiting := fun _ _ _ => .inr (.inr hzero)
    holding := fun inv' i' h => List.mem_cons_of_mem _ (hf.holding inv' i' h)
    silent := fun _ _ _ => hzero
    next := next_cons hf.next fun _ _ h => by cases h
    final := final_cons hf.final fun _ _ h => by cases h }
  simp only [sentCount, answeredCount, List.countP_cons] at hsingle ⊢
  simp only [Bool.false_eq_true, if_false, if_true]
  omega

theorem Flow.Inv.drop {inv i : ℕ} (ho : f.outstanding = some (inv, i)) :
    Flow.Inv { f with outstanding := none } := by
  have hzero := (FlowStep.drop ho).live_zero hf.live
  exact { hf with
    live := by omega
    waiting := fun _ _ _ => .inr (.inr hzero)
    silent := fun _ _ _ => hzero }

end Step

/-- **Every step keeps flow control.** -/
theorem FlowStep.inv {lost : Bool} {f g : Flow} (h : FlowStep lost f g) (hf : f.Inv) : g.Inv := by
  cases h with
  | stay => exact hf
  | start inv hp => exact hf.start inv hp
  | take hp hc => exact hf.take hp hc
  | fail hp => exact hf.fail hp
  | refuse hp => exact hf.refuse hp
  | send last hp ho => exact hf.send last hp ho
  | gave ho => exact hf.gave ho
  | silent ho => exact hf.silentStep ho
  | drop ho => exact hf.drop ho

end Client
end NrfSamples
