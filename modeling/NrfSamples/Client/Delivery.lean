/-
# What a server has after any run

The accepted frames of a run of the client go to a server as in `Smp.Resume`,
which may hold an unfinished upload, keeps what it has when the `sha` is that of
the client, and takes a request whose offset is the number of bytes it has.

A session there is one invocation of `send_upload2` in which nothing fails.  Here
the frames are those of a run of the step system: the upload button may be pressed
again and again, an invocation may be cut short, other commands come in between.
`server_after_run`: the server has what it kept and behind it the chunks from there
on, as far as the furthest invocation came, so in the end the slot exactly if what
it kept agrees with that; sending chunks again does no harm.
-/

import NrfSamples.Client.Serial
import NrfSamples.Smp.Resume

namespace NrfSamples
namespace Client

open Cbor Zcbor Smp Transition

/-- What the server does when it sees this: it handles the frames accepted. -/
def observe (sv : Server) : SendEvent → Server
  | .handed _ _ f true =>
      match readUploadReq f with
      | some q => sv.handle q
      | none => sv
  | _ => sv

/-- The server after the uploads of a run. -/
def serverAfter (u : Option Unfinished) (es : List SendEvent) : Server :=
  es.foldl observe (.holding u)

/-- How many chunks this one makes, if it was accepted. -/
def SendEvent.reach : SendEvent → ℕ
  | .handed _ i _ true => i + 1
  | _ => 0

/-- How many chunks the furthest invocation got accepted. -/
def chunksSent (es : List SendEvent) : ℕ := es.foldl (fun n e => max n e.reach) 0

theorem serverAfter_snoc (u : Option Unfinished) (es : List SendEvent) (e : SendEvent) :
    serverAfter u (es ++ [e]) = observe (serverAfter u es) e := by
  simp [serverAfter]

theorem chunksSent_snoc (es : List SendEvent) (e : SendEvent) :
    chunksSent (es ++ [e]) = max (chunksSent es) e.reach := by
  simp [chunksSent]

/-- The chunks of the invocation that is under way are among them. -/
theorem length_le_chunksSent (es : List SendEvent) (inv : ℕ) (sent : List (List UInt8)) :
    sent.length ≤ chunksSent (es ++ acceptedChunks inv sent) := by
  induction sent using List.reverseRecOn with
  | nil => exact Nat.zero_le _
  | append_singleton sent f _ =>
    rw [acceptedChunks_snoc, ← List.append_assoc, chunksSent_snoc, List.length_append,
      List.length_singleton]
    exact Nat.le_max_right _ _

/-- What the server has, after `n` chunks of the furthest invocation. -/
structure Delivered (E : Setup) (u : Option Unfinished) (n : ℕ) (sv : Server) : Prop where
  bound : n ≤ E.slot.size / chunkSize + 1
  nothing : n = 0 → sv = .holding u
  stored : 0 < n → sv.sha = some (ascii "12345") ∧
    Stored E.slot E.flash (keptBytes u) n sv.bytes

theorem Delivered.start (E : Setup) (u : Option Unfinished) : Delivered E u 0 (.holding u) where
  bound := Nat.zero_le _
  nothing := fun _ => rfl
  stored := fun h => absurd h (lt_irrefl 0)

/-- A request with the `sha` of the client, or with a later offset, starts nothing
over. -/
theorem restart_eq {S : Slot} {flash : ℤ → UInt8} {i : ℕ} {q : UploadReq} {sv : Server}
    (hq : CarriesChunk S flash i q) (hsha : sv.sha = some (ascii "12345")) :
    sv.restart q = sv := by
  rw [Server.restart, if_neg]
  rintro ⟨hoff, hne⟩
  have hi : i = 0 := by
    rw [hq.off] at hoff
    simpa [chunkSize] using hoff
  rw [hq.sha, hsha, if_pos hi] at hne
  exact hne rfl

/-- **A chunk that was sent before.**  The server has it, or never takes any. -/
theorem handle_again {S : Slot} {flash : ℤ → UInt8} {kept : List UInt8} {n i : ℕ} {q : UploadReq}
    {sv : Server} (h : Stored S flash kept n sv.bytes) (hsha : sv.sha = some (ascii "12345"))
    (hq : CarriesChunk S flash i q) (hlt : i < n) : sv.handle q = sv := by
  have hmul : chunkSize * i < chunkSize * n := Nat.mul_lt_mul_of_pos_left hlt (by decide)
  rw [Server.handle, restart_eq hq hsha, if_neg]
  intro hcount
  rw [hq.off] at hcount
  by_cases hjoin : chunkSize ∣ kept.length ∧ kept.length < chunkSize * n
  · have := (h.joined hjoin.1 hjoin.2).1
    omega
  · rw [h.refused hjoin] at hcount
    exact hjoin ⟨⟨i, hcount.symm⟩, by omega⟩

/-- **A chunk that arrives.**  It is the next one, or was sent before. -/
theorem Delivered.handle {E : Setup} {u : Option Unfinished} {n i : ℕ} {q : UploadReq} {sv : Server}
    (h : Delivered E u n sv) (hq : CarriesChunk E.slot E.flash i q) (hi : i ≤ n)
    (hle : chunkSize * i ≤ E.slot.size) : Delivered E u (max n (i + 1)) (sv.handle q) := by
  have hbound : max n (i + 1) ≤ E.slot.size / chunkSize + 1 := by
    have : i ≤ E.slot.size / chunkSize := by
      rw [Nat.le_div_iff_mul_le (by decide), Nat.mul_comm]
      exact hle
    have := h.bound
    omega
  refine ⟨hbound, by omega, fun _ => ?_⟩
  rcases Nat.eq_zero_or_pos n with rfl | hpos
  · -- the first chunk of the run: the server is told the `sha`
    obtain rfl : i = 0 := by omega
    rw [h.nothing rfl, Server.handle_first hq u]
    have hzero : Stored E.slot E.flash (keptBytes u) 0 (Server.keeping u).bytes :=
      Stored.zero E.slot E.flash (keptBytes u)
    have hfirst := hzero.handle rfl hq hle
    exact ⟨hfirst.2, hfirst.1⟩
  · obtain ⟨hsha, hstored⟩ := h.stored hpos
    rcases Nat.lt_or_ge i n with hlt | hge
    · rw [handle_again hstored hsha hq hlt, Nat.max_eq_left hlt]
      exact ⟨hsha, hstored⟩
    · obtain rfl : i = n := by omega
      have hnext := hstored.handle hsha hq hle
      rw [Nat.max_eq_right (Nat.le_succ i)]
      exact ⟨hnext.2, hnext.1⟩

/-- What a step shows: nothing that reaches the server, or the chunk of the
invocation that is under way. -/
theorem sendEvents_cases (s : System) (a : Action) :
    (∀ es, chunksSent (es ++ sendEvents s a) = chunksSent es ∧
        ∀ u, serverAfter u (es ++ sendEvents s a) = serverAfter u es) ∨
      ∃ inv i v f, s.worker = some ⟨inv, i, v, .command f⟩ ∧
        sendEvents s a = [.handed inv i f true] := by
  have hnil : ∀ es : List SendEvent, chunksSent (es ++ []) = chunksSent es ∧
      ∀ u, serverAfter u (es ++ []) = serverAfter u es := by simp
  have hone : ∀ e : SendEvent, e.reach = 0 → (∀ sv, observe sv e = sv) → ∀ es : List SendEvent,
      chunksSent (es ++ [e]) = chunksSent es ∧
        ∀ u, serverAfter u (es ++ [e]) = serverAfter u es := by
    intro e hreach hobserve es
    rw [chunksSent_snoc, hreach, Nat.max_zero]
    exact ⟨rfl, fun u => by rw [serverAfter_snoc, hobserve]⟩
  cases a with
  | startWork data => exact .inl (hone _ rfl fun _ => rfl)
  | command ok =>
    unfold sendEvents
    dsimp only
    split
    · rename_i inv i v f hw
      cases s.accepts ok with
      | true => exact .inr ⟨inv, i, v, f, hw, rfl⟩
      | false => exact .inl (hone _ rfl fun _ => rfl)
    · exact .inl hnil
  | _ => exact .inl hnil

/-- What a server has after a run: every step keeps it. -/
theorem delivered_run (E : Setup) (u : Option Unfinished) (as : List Action) :
    Delivered E u (chunksSent ((client E).history sendEvents .start as))
      (serverAfter u ((client E).history sendEvents .start as)) := by
  have h := Machine.history_of_step (M := client E) sendEvents
    (R := fun h s => (Current E h s ∨ Lost E h s) ∧
      Delivered E u (chunksSent h) (serverAfter u h)) ?_
    ⟨.inl (Current.start E), Delivered.start E u⟩ as
  · exact h.2
  · rintro h s a t ⟨hs, hd⟩ ht
    refine ⟨hs.elim (fun hs => hs.step ht) fun hs => .inr (hs.step ht), ?_⟩
    rcases sendEvents_cases s a with hquiet | ⟨inv, i, v, f, hw, hevents⟩
    · rw [(hquiet h).1, (hquiet h).2 u]
      exact hd
    · have hcurrent : Current E h s :=
        hs.resolve_right fun hlost => hlost.stuck.2 ⟨_, hw, nofun⟩
      obtain ⟨whole, data, sent, rest, v', hh, -, -, hfollows⟩ := hcurrent.busy _ hw
      obtain ⟨hi, hle, q, hq, hcarries⟩ := hfollows.carries
      have hreach : i ≤ chunksSent h := by
        rw [hh, hi, List.append_cons]
        exact length_le_chunksSent _ inv sent
      have hobserve : observe (serverAfter u h) (.handed inv i f true) =
          (serverAfter u h).handle q := by
        simp only [observe, hq]
      rw [hevents, chunksSent_snoc, serverAfter_snoc, hobserve]
      exact hd.handle hcarries hreach hle

/-- **The slot is on the server**, behind its last chunk, exactly if what the server kept
agrees with it. -/
theorem Delivered.eq_contents_iff {E : Setup} {u : Option Unfinished} {sv : Server}
    (h : Delivered E u (E.slot.size / chunkSize + 1) sv) :
    sv.bytes.take E.slot.size = E.slot.contents E.flash ↔
      KeptAgrees E.slot E.flash (keptBytes u) :=
  (h.stored (Nat.succ_pos _)).2.eq_contents_iff

/-- **What a server has after any run.**  For every order of the steps, every server
and every unfinished upload that it holds. -/
theorem server_after_run (E : Setup) (u : Option Unfinished) (as : List Action) :
    Delivered E u (chunksSent ((client E).history sendEvents .start as))
        (serverAfter u ((client E).history sendEvents .start as)) ∧
      (chunksSent ((client E).history sendEvents .start as) = E.slot.size / chunkSize + 1 →
        ((serverAfter u ((client E).history sendEvents .start as)).bytes.take E.slot.size =
          E.slot.contents E.flash ↔ KeptAgrees E.slot E.flash (keptBytes u))) := by
  have h := delivered_run E u as
  exact ⟨h, fun hlast => Delivered.eq_contents_iff (hlast ▸ h)⟩

end Client
end NrfSamples
