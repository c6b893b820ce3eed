/-
# The connection of the SMP client

`scan_connecting`, `scan_connecting_error`, `connected` and `disconnected` in
`bootloader_samples/client_smp/smp_client_ble/src/main.c`.

The four callbacks share `default_conn`, the references the application holds
and the scanning that `bt_scan_start` restarts.  What they print, and the
security, MTU and discovery procedures that `connected` starts, change none of
these and are left out.

The Bluetooth stack is not part of the sources.  It is the environment of the
machine `central`: `bt_scan` stops scanning on a match and then delivers
`scan_connecting` or `scan_connecting_error`, an attempt ends with `connected`
with or without an error, an established link ends with `disconnected`, and
`bt_scan_start` succeeds.  Events about connections the application did not
ask for are possible at any time.

`oneOf_iff_meets` says when the client is always either scanning without a
connection or holding exactly one: as long as `scan_connecting_error` is never
called.  The other two failure paths restart scanning; that one does not.
-/

import NrfSamples.Transition.Run
import Mathlib.Logic.Basic
import Mathlib.Logic.Function.Basic

namespace NrfSamples
namespace Link

open Transition

/-- Where a connection object is, seen from the stack. -/
inductive LinkState
  | idle
  | pending
  | established
  deriving DecidableEq, Repr

/-- The state the callbacks share: whether scanning is active, `default_conn`
(`none` for `NULL`) and how many references to each connection object the
application holds. -/
structure Central (Conn : Type*) where
  scanning : Bool
  defaultConn : Option Conn
  refs : Conn → ℕ

variable {Conn : Type*} [DecidableEq Conn]

/-- `bt_conn_ref`. -/
def Central.btConnRef (s : Central Conn) (conn : Conn) : Central Conn :=
  { s with refs := Function.update s.refs conn (s.refs conn + 1) }

/-- `bt_conn_unref`. -/
def Central.btConnUnref (s : Central Conn) (conn : Conn) : Central Conn :=
  { s with refs := Function.update s.refs conn (s.refs conn - 1) }

/-- `bt_scan_start`, which succeeds. -/
def Central.btScanStart (s : Central Conn) : Central Conn := { s with scanning := true }

/-- `scan_connecting_error`: it only prints. -/
def scanConnectingError (s : Central Conn) : Central Conn := s

/-- `scan_connecting`. -/
def scanConnecting (conn : Conn) (s : Central Conn) : Central Conn :=
  { s.btConnRef conn with defaultConn := some conn }

/-- `connected`. -/
def connected (conn : Conn) (connErr : UInt8) (s : Central Conn) : Central Conn :=
  if connErr ≠ 0 then
    if s.defaultConn = some conn then
      ({ s.btConnUnref conn with defaultConn := none }).btScanStart
    else
      s
  else
    s

/-- `disconnected`. -/
def disconnected (conn : Conn) (_reason : UInt8) (s : Central Conn) : Central Conn :=
  if s.defaultConn ≠ some conn then
    s
  else
    ({ s.btConnUnref conn with defaultConn := none }).btScanStart

/-- Where an attempt leaves the connection object. -/
def linkAfter (connErr : UInt8) : LinkState := if connErr ≠ 0 then .idle else .established

/-- The client and the links of the stack. -/
structure World (Conn : Type*) where
  app : Central Conn
  link : Conn → LinkState

/-- What the stack can do next. -/
inductive Event (Conn : Type*)
  | scanConnecting (conn : Conn)
  | scanConnectingError
  | connected (conn : Conn) (connErr : UInt8)
  | disconnected (conn : Conn) (reason : UInt8)
  deriving DecidableEq, Repr

/-- One event of the stack with its callback.  The two events of a match stop
the scanning first. -/
def worldStep (w : World Conn) : Event Conn → Option (World Conn)
  | .scanConnecting conn =>
      if w.app.scanning ∧ w.link conn = .idle then
        some ⟨scanConnecting conn { w.app with scanning := false },
          Function.update w.link conn .pending⟩
      else
        none
  | .scanConnectingError =>
      if w.app.scanning then
        some { w with app := scanConnectingError { w.app with scanning := false } }
      else
        none
  | .connected conn connErr =>
      if w.link conn ≠ .established then
        some ⟨connected conn connErr w.app,
          Function.update w.link conn (linkAfter connErr)⟩
      else
        none
  | .disconnected conn reason =>
      if w.link conn = .established then
        some ⟨disconnected conn reason w.app, Function.update w.link conn .idle⟩
      else
        none

/-- The client after `main` has started scanning, with links of its own making
or not. -/
def World.start (link : Conn → LinkState) : World Conn :=
  ⟨{ scanning := true, defaultConn := none, refs := fun _ => 0 }, link⟩

/-- The client and its stack, from the end of `main` on. -/
def central : Machine (World Conn) (Event Conn) where
  init w := ∃ link, w = World.start link
  step := worldStep

/-- Scanning, without a connection and without a reference. -/
def World.Scanning (w : World Conn) : Prop :=
  w.app.scanning = true ∧ w.app.defaultConn = none ∧ ∀ c, w.app.refs c = 0

/-- Not scanning, with one reference, to the pending or established connection
`default_conn`. -/
def World.Holding (w : World Conn) : Prop :=
  w.app.scanning = false ∧ ∃ c, w.app.defaultConn = some c ∧ w.link c ≠ .idle ∧
    w.app.refs c = 1 ∧ ∀ d, d ≠ c → w.app.refs d = 0

/-- Exactly one of the two. -/
def World.OneOf (w : World Conn) : Prop := Xor w.Scanning w.Holding

omit [DecidableEq Conn] in
theorem World.oneOf_iff (w : World Conn) : w.OneOf ↔ w.Scanning ∨ w.Holding := by
  constructor
  · rintro (⟨h, _⟩ | ⟨h, _⟩)
    · exact Or.inl h
    · exact Or.inr h
  · rintro (h | h)
    · exact Or.inl ⟨h, fun hh => absurd (h.1.symm.trans hh.1) (by decide)⟩
    · exact Or.inr ⟨h, fun hs => absurd (hs.1.symm.trans h.1) (by decide)⟩

/-- Dropping the one reference and starting to scan. -/
theorem scanning_of_drop {s : Central Conn} {c : Conn} {link : Conn → LinkState}
    (hc : s.refs c = 1) (hd : ∀ d, d ≠ c → s.refs d = 0) :
    (⟨({ s.btConnUnref c with defaultConn := none }).btScanStart, link⟩ : World Conn).Scanning := by
  refine ⟨rfl, rfl, fun d => ?_⟩
  simp only [Central.btScanStart, Central.btConnUnref, Function.update_apply]
  split_ifs with h
  · rw [hc]
  · exact hd d h

theorem World.Scanning.connecting {w : World Conn} (h : w.Scanning) (conn : Conn) :
    (⟨scanConnecting conn { w.app with scanning := false },
      Function.update w.link conn .pending⟩ : World Conn).Holding := by
  refine ⟨rfl, conn, rfl, by simp, ?_, fun d hd => ?_⟩
  · simp [scanConnecting, Central.btConnRef, h.2.2 conn]
  · simp [scanConnecting, Central.btConnRef, hd, h.2.2 d]

omit [DecidableEq Conn] in
/-- An event that leaves the application alone keeps it scanning. -/
theorem World.Scanning.of_app {w : World Conn} (h : w.Scanning) (link : Conn → LinkState) :
    (⟨w.app, link⟩ : World Conn).Scanning := h

theorem World.Scanning.connected {w : World Conn} (h : w.Scanning) (conn : Conn) (connErr : UInt8)
    (link : Conn → LinkState) : (⟨connected conn connErr w.app, link⟩ : World Conn).Scanning := by
  have hn : w.app.defaultConn ≠ some conn := by rw [h.2.1]; simp
  have happ : Link.connected conn connErr w.app = w.app := by
    simp only [Link.connected, hn, if_false, ite_self]
  rw [happ]
  exact h.of_app link

theorem World.Scanning.disconnected {w : World Conn} (h : w.Scanning) (conn : Conn)
    (reason : UInt8) (link : Conn → LinkState) :
    (⟨disconnected conn reason w.app, link⟩ : World Conn).Scanning := by
  have hn : w.app.defaultConn ≠ some conn := by rw [h.2.1]; simp
  have happ : Link.disconnected conn reason w.app = w.app := by
    simp only [Link.disconnected, hn, ne_eq, not_false_eq_true, if_true]
  rw [happ]
  exact h.of_app link

/-- `connected` with an error for the held connection drops it; everything else
keeps it. -/
theorem World.Holding.connected {w : World Conn} (h : w.Holding) (conn : Conn) (connErr : UInt8) :
    (⟨connected conn connErr w.app,
      Function.update w.link conn (linkAfter connErr)⟩ :
        World Conn).OneOf := by
  obtain ⟨hscan, c, hc, hlink, hone, hzero⟩ := h
  rw [World.oneOf_iff]
  by_cases herr : connErr ≠ 0
  · by_cases hcc : conn = c
    · subst hcc
      rw [Link.connected, if_pos herr, if_pos hc]
      exact Or.inl (scanning_of_drop hone hzero)
    · have hn : w.app.defaultConn ≠ some conn := by
        rw [hc]; simpa using fun h => hcc h.symm
      rw [Link.connected, if_pos herr, if_neg hn]
      exact Or.inr ⟨hscan, c, hc, by simpa [Function.update_apply, Ne.symm hcc] using hlink,
        hone, hzero⟩
  · rw [Link.connected, if_neg herr]
    refine Or.inr ⟨hscan, c, hc, ?_, hone, hzero⟩
    simp only [linkAfter, herr, if_false, Function.update_apply]
    split_ifs
    · simp
    · exact hlink

theorem World.Holding.disconnected {w : World Conn} (h : w.Holding) (conn : Conn)
    (reason : UInt8) :
    (⟨disconnected conn reason w.app, Function.update w.link conn .idle⟩ : World Conn).OneOf := by
  obtain ⟨hscan, c, hc, hlink, hone, hzero⟩ := h
  rw [World.oneOf_iff]
  by_cases hcc : conn = c
  · subst hcc
    simp only [Link.disconnected, hc, ne_eq, not_true_eq_false, if_false]
    exact Or.inl (scanning_of_drop hone hzero)
  · have hn : w.app.defaultConn ≠ some conn := by
      rw [hc]; simpa using fun h => hcc h.symm
    simp only [Link.disconnected, hn, ne_eq, not_false_eq_true, if_true]
    exact Or.inr ⟨hscan, c, hc, by simpa [Function.update_apply, Ne.symm hcc] using hlink,
      hone, hzero⟩

/-- Every event but `scan_connecting_error` keeps exactly one of the two. -/
theorem World.OneOf.step (w : World Conn) (e : Event Conn) (v : World Conn) (h : w.OneOf)
    (he : e ≠ .scanConnectingError) (hv : central.step w e = some v) : v.OneOf := by
  rw [World.oneOf_iff] at h
  cases e with
  | scanConnecting conn =>
    simp only [central, worldStep] at hv
    split_ifs at hv with hg
    obtain rfl := Option.some.inj hv
    rcases h with h | h
    · exact (World.oneOf_iff _).2 (Or.inr (h.connecting conn))
    · exact absurd (hg.1.symm.trans h.1) (by decide)
  | scanConnectingError => exact absurd rfl he
  | connected conn connErr =>
    simp only [central, worldStep] at hv
    split_ifs at hv with hg
    obtain rfl := Option.some.inj hv
    rcases h with h | h
    · exact (World.oneOf_iff _).2 (Or.inl (h.connected conn connErr _))
    · exact h.connected conn connErr
  | disconnected conn reason =>
    simp only [central, worldStep] at hv
    split_ifs at hv with hg
    obtain rfl := Option.some.inj hv
    rcases h with h | h
    · exact (World.oneOf_iff _).2 (Or.inl (h.disconnected conn reason _))
    · exact h.disconnected conn reason

/-- After `scan_connecting_error` the client neither scans nor holds a
connection. -/
theorem World.OneOf.not_of_scanConnectingError (w : World Conn) (e : Event Conn) (v : World Conn)
    (h : w.OneOf) (he : ¬ e ≠ .scanConnectingError) (hv : central.step w e = some v) :
    ¬ v.OneOf := by
  rw [not_not] at he
  subst he
  simp only [central, worldStep, scanConnectingError] at hv
  split_ifs at hv with hg
  obtain rfl := Option.some.inj hv
  rw [World.oneOf_iff] at h ⊢
  rcases h with h | h
  · rintro (hs | ⟨_, c, hc, _⟩)
    · exact Bool.false_ne_true hs.1
    · exact absurd (h.2.1.symm.trans hc) (by simp)
  · exact absurd (hg.symm.trans h.1) (by decide)

/-- **When the client is always scanning or connected.**  Along a run, in every
state exactly one of the two holds if and only if no step of the run is
`scan_connecting_error`. -/
theorem oneOf_iff_meets (link : Conn → LinkState) (es : List (Event Conn)) :
    central.Always World.OneOf (World.start link) es ↔
      central.Meets (fun _ e => e ≠ .scanConnectingError) (World.start link) es :=
  Machine.always_iff_meets (fun _ h => h) World.OneOf.step World.OneOf.not_of_scanConnectingError
    ((World.oneOf_iff _).2 (Or.inl ⟨rfl, rfl, fun _ => rfl⟩))

/-- A failed attempt to create the connection: scanning has stopped, and there
is no connection. -/
theorem not_oneOf_connecting_error :
    ¬ ∀ (link : Bool → LinkState) (es : List (Event Bool)),
      central.Always World.OneOf (World.start link) es := by
  intro h
  have hstop := (h (fun _ => .idle) [.scanConnectingError]).2 _ rfl
  rw [Machine.Always, World.oneOf_iff] at hstop
  rcases hstop with hs | ⟨_, c, hc, _⟩
  · exact absurd hs.1 (by decide)
  · exact absurd hc (by simp [World.start, scanConnectingError])

end Link
end NrfSamples
