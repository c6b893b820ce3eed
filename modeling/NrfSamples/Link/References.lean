/-
# References and scanning when `bt_scan_start` can fail

In `Connection` every `bt_scan_start` succeeds.  Here it may fail: `connected` and
`disconnected` in `bootloader_samples/client_smp/smp_client_ble/src/main.c` only
print its error, and have dropped `default_conn` before (`radio`).

`accounted_always`: whatever the stack does, the application holds one reference
to `default_conn` and none to anything else, never scans while it holds it, and
`default_conn` is no dead link.  `oneOf_iff_goes`: it is always scanning or
connected exactly as long as no attempt fails early and no scanning fails to
start; and once it is not, it never is again (`stopped_always`).
-/

import NrfSamples.Link.Connection
import NrfSamples.Transition.Reach
import Mathlib.Data.Int.Notation

namespace NrfSamples
namespace Link

open Transition

variable {Conn : Type*} [DecidableEq Conn]

/-- The callback with a `bt_scan_start` that returns `rc`: if it fails, scanning is as it
was before. -/
def World.scanStarted (w : World Conn) (rc : ℤ) (v : World Conn) : World Conn :=
  if rc = 0 then v else { v with app := { v.app with scanning := w.app.scanning } }

/-- An event, and what `bt_scan_start` returns if the callback calls it. -/
def radioStep (w : World Conn) : Event Conn × ℤ → Option (World Conn)
  | (.connected conn connErr, rc) =>
      (worldStep w (.connected conn connErr)).map (w.scanStarted rc)
  | (.disconnected conn reason, rc) =>
      (worldStep w (.disconnected conn reason)).map (w.scanStarted rc)
  | (e, _) => worldStep w e

/-- The client and its stack, where scanning may fail to start. -/
def radio : Machine (World Conn) (Event Conn × ℤ) where
  init w := ∃ link, w = World.start link
  step := radioStep

/-- Not scanning, and without a connection or a reference. -/
structure World.Stopped (w : World Conn) : Prop where
  scanning : w.app.scanning = false
  defaultConn : w.app.defaultConn = none
  refs : ∀ c, w.app.refs c = 0

/-- The callback drops `default_conn` and starts to scan. -/
def Event.Drops (w : World Conn) : Event Conn → Prop
  | .connected conn connErr => connErr ≠ 0 ∧ w.app.defaultConn = some conn
  | .disconnected conn _ => w.app.defaultConn = some conn
  | _ => False

/-- The step does not stop the client: no attempt fails before there is a connection, and
no scanning that the callback starts fails. -/
def Goes (w : World Conn) (p : Event Conn × ℤ) : Prop :=
  p.1 ≠ .scanConnectingError ∧ (p.1.Drops w → p.2 = 0)

/-! ### One step -/

omit [DecidableEq Conn] in
theorem World.scanStarted_eq {w v : World Conn} {rc : ℤ}
    (h : rc ≠ 0 → v.app.scanning = w.app.scanning) : w.scanStarted rc v = v := by
  obtain ⟨⟨scanning, defaultConn, refs⟩, link⟩ := v
  rw [World.scanStarted]
  split_ifs with hrc
  · rfl
  · rw [← h hrc]

/-- A callback that drops nothing leaves the scanning alone. -/
theorem scanning_of_not_drops {w v : World Conn} {e : Event Conn} (he : ¬ e.Drops w)
    (hcallback : (∃ conn connErr, e = .connected conn connErr) ∨
      ∃ conn reason, e = .disconnected conn reason) (hv : worldStep w e = some v) :
    v.app.scanning = w.app.scanning := by
  rcases hcallback with ⟨conn, connErr, rfl⟩ | ⟨conn, reason, rfl⟩
  · simp only [worldStep] at hv
    split_ifs at hv with hlink
    obtain rfl := Option.some.inj hv
    have happ : connected conn connErr w.app = w.app := by
      unfold connected
      split_ifs with herr hconn
      · exact absurd ⟨herr, hconn⟩ he
      · rfl
      · rfl
    exact congrArg Central.scanning happ
  · simp only [worldStep] at hv
    split_ifs at hv with hlink
    obtain rfl := Option.some.inj hv
    have happ : disconnected conn reason w.app = w.app := if_pos he
    exact congrArg Central.scanning happ

/-- **A step whose `bt_scan_start` does not fail** is one of `central`. -/
theorem worldStep_of_radioStep {w v : World Conn} {e : Event Conn} {rc : ℤ}
    (hrc : e.Drops w → rc = 0) (hv : radioStep w (e, rc) = some v) : worldStep w e = some v := by
  cases e with
  | scanConnecting conn => exact hv
  | scanConnectingError => exact hv
  | connected conn connErr =>
    obtain ⟨u, hu, rfl⟩ := Option.map_eq_some_iff.1 hv
    rw [World.scanStarted_eq fun hne =>
      scanning_of_not_drops (mt hrc hne) (.inl ⟨conn, connErr, rfl⟩) hu]
    exact hu
  | disconnected conn reason =>
    obtain ⟨u, hu, rfl⟩ := Option.map_eq_some_iff.1 hv
    rw [World.scanStarted_eq fun hne =>
      scanning_of_not_drops (mt hrc hne) (.inr ⟨conn, reason, rfl⟩) hu]
    exact hu

omit [DecidableEq Conn] in
/-- Who drops `default_conn` was holding it. -/
theorem World.OneOf.holding {w : World Conn} (h : w.OneOf) {c : Conn}
    (hc : w.app.defaultConn = some c) : w.Holding := by
  refine ((World.oneOf_iff w).1 h).resolve_left fun hs => ?_
  rw [hs.2.1] at hc
  cases hc

/-- **Dropping the connection without scanning** stops the client. -/
theorem stopped_of_drop {w v : World Conn} {e : Event Conn} {rc : ℤ} (h : w.OneOf)
    (he : e.Drops w) (hrc : rc ≠ 0) (hv : radioStep w (e, rc) = some v) : v.Stopped := by
  have key : ∀ c link, w.app.defaultConn = some c → (w.scanStarted rc
      ⟨({ w.app.btConnUnref c with defaultConn := none }).btScanStart, link⟩).Stopped := by
    intro c link hc
    obtain ⟨hscan, d, hd, -, hone, hzero⟩ := h.holding hc
    obtain rfl := Option.some.inj (hc.symm.trans hd)
    rw [World.scanStarted, if_neg hrc]
    have hs : (⟨({ w.app.btConnUnref c with defaultConn := none }).btScanStart, link⟩ :
        World Conn).Scanning := scanning_of_drop hone hzero
    exact ⟨hscan, rfl, hs.2.2⟩
  cases e with
  | scanConnecting conn => exact he.elim
  | scanConnectingError => exact he.elim
  | connected conn connErr =>
    obtain ⟨u, hu, rfl⟩ := Option.map_eq_some_iff.1 hv
    simp only [worldStep] at hu
    split_ifs at hu with hlink
    obtain rfl := Option.some.inj hu
    rw [connected, if_pos he.1, if_pos he.2]
    exact key conn _ he.2
  | disconnected conn reason =>
    obtain ⟨u, hu, rfl⟩ := Option.map_eq_some_iff.1 hv
    simp only [worldStep] at hu
    split_ifs at hu with hlink
    obtain rfl := Option.some.inj hu
    have hne : ¬ w.app.defaultConn ≠ some conn := not_not.2 he
    rw [disconnected, if_neg hne]
    exact key conn _ he

omit [DecidableEq Conn] in
/-- There is nothing to drop. -/
theorem World.Stopped.not_drops {w : World Conn} (h : w.Stopped) (e : Event Conn) :
    ¬ e.Drops w := by
  have hno : ∀ c, w.app.defaultConn ≠ some c := by simp [h.defaultConn]
  cases e with
  | scanConnecting conn => exact not_false
  | scanConnectingError => exact not_false
  | connected conn connErr => exact fun hd => hno conn hd.2
  | disconnected conn reason => exact hno conn

/-- **Once it has stopped, the client stays so**: nothing scans, and there is no connection
whose end would start to. -/
theorem World.Stopped.step {w v : World Conn} {p : Event Conn × ℤ} (h : w.Stopped)
    (hv : radioStep w p = some v) : v.Stopped := by
  obtain ⟨e, rc⟩ := p
  have hno : ∀ c, w.app.defaultConn ≠ some c := by simp [h.defaultConn]
  have hw := worldStep_of_radioStep (fun hd => absurd hd (h.not_drops e)) hv
  cases e with
  | scanConnecting conn =>
    simp [worldStep, h.scanning] at hw
  | scanConnectingError =>
    simp [worldStep, h.scanning] at hw
  | connected conn connErr =>
    simp only [worldStep] at hw
    split_ifs at hw with hlink
    obtain rfl := Option.some.inj hw
    have happ : connected conn connErr w.app = w.app := by
      simp only [connected, hno, if_false, ite_self]
    rw [happ]
    exact ⟨h.scanning, h.defaultConn, h.refs⟩
  | disconnected conn reason =>
    simp only [worldStep] at hw
    split_ifs at hw with hlink
    obtain rfl := Option.some.inj hw
    have happ : disconnected conn reason w.app = w.app := if_pos (hno conn)
    rw [happ]
    exact ⟨h.scanning, h.defaultConn, h.refs⟩

omit [DecidableEq Conn] in
theorem World.Stopped.not_oneOf {w : World Conn} (h : w.Stopped) : ¬ w.OneOf := by
  rw [World.oneOf_iff]
  rintro (hs | ⟨-, c, hc, -⟩)
  · exact absurd (hs.1.symm.trans h.scanning) (by decide)
  · exact absurd (hc.symm.trans h.defaultConn) (by simp)

/-- A step that goes on keeps scanning or connected. -/
theorem World.OneOf.goes {w v : World Conn} {p : Event Conn × ℤ} (h : w.OneOf) (hp : Goes w p)
    (hv : radioStep w p = some v) : v.OneOf :=
  World.OneOf.step w p.1 v h hp.1 (worldStep_of_radioStep hp.2 hv)

/-- A step that does not go on stops the client. -/
theorem World.OneOf.stopped {w v : World Conn} {p : Event Conn × ℤ} (h : w.OneOf)
    (hp : ¬ Goes w p) (hv : radioStep w p = some v) : v.Stopped := by
  obtain ⟨e, rc⟩ := p
  by_cases he : e = .scanConnectingError
  · subst he
    have hstep : worldStep w .scanConnectingError = some v := hv
    simp only [worldStep, scanConnectingError] at hstep
    split_ifs at hstep with hscan
    obtain rfl := Option.some.inj hstep
    have hs : w.Scanning := ((World.oneOf_iff w).1 h).resolve_right fun hh =>
      absurd (hscan.symm.trans hh.1) (by decide)
    exact ⟨rfl, hs.2.1, hs.2.2⟩
  · have hdrop : e.Drops w ∧ rc ≠ 0 := by
      by_contra hno
      exact hp ⟨he, fun hd => by_contra fun hrc => hno ⟨hd, hrc⟩⟩
    exact stopped_of_drop h hdrop.1 hdrop.2 hv

/-! ### Runs -/

omit [DecidableEq Conn] in
theorem World.oneOf_start (link : Conn → LinkState) : (World.start link).OneOf :=
  (World.oneOf_iff _).2 (.inl ⟨rfl, rfl, fun _ => rfl⟩)

/-- **Behind any run** the client is scanning or connected, or has stopped. -/
theorem oneOf_or_stopped {link : Conn → LinkState} {ps : List (Event Conn × ℤ)} {w : World Conn}
    (hw : radio.after (World.start link) ps = some w) : w.OneOf ∨ w.Stopped := by
  have hstep : ∀ (u : World Conn) p v, u.OneOf ∨ u.Stopped → radio.step u p = some v →
      v.OneOf ∨ v.Stopped := by
    rintro u p v (h | h) hv
    · by_cases hp : Goes u p
      · exact .inl (h.goes hp hv)
      · exact .inr (h.stopped hp hv)
    · exact .inr (h.step hv)
  exact Machine.after_of_step hstep (.inl (World.oneOf_start link)) hw

/-- One reference to `default_conn` and none to another connection, no scanning while
there is one, and no `default_conn` without a link or an attempt to make one. -/
structure World.Accounted (w : World Conn) : Prop where
  refs : ∀ c, w.app.refs c = if w.app.defaultConn = some c then 1 else 0
  apart : w.app.scanning = true → w.app.defaultConn = none
  linked : ∀ c, w.app.defaultConn = some c → w.link c ≠ .idle

theorem World.OneOf.accounted {w : World Conn} (h : w.OneOf) : w.Accounted := by
  rcases (World.oneOf_iff w).1 h with ⟨hscan, hnone, hrefs⟩ | ⟨hscan, c, hc, hlink, hone, hzero⟩
  · exact ⟨fun c => by rw [hrefs, hnone, if_neg (by simp)], fun _ => hnone,
      fun c hc => absurd (hc.symm.trans hnone) (by simp)⟩
  · refine ⟨fun d => ?_, fun hs => absurd (hs.symm.trans hscan) (by decide), fun d hd => ?_⟩
    · rw [hc]
      by_cases hdc : d = c
      · rw [hdc, hone, if_pos rfl]
      · rw [hzero d hdc, if_neg fun heq => hdc (Option.some.inj heq).symm]
    · obtain rfl := Option.some.inj (hc.symm.trans hd)
      exact hlink

theorem World.Stopped.accounted {w : World Conn} (h : w.Stopped) : w.Accounted :=
  ⟨fun c => by rw [h.refs, h.defaultConn, if_neg (by simp)], fun _ => h.defaultConn,
    fun c hc => absurd (hc.symm.trans h.defaultConn) (by simp)⟩

/-- **References are accounted for**, in every state of every run: attempts that fail,
links of others and scanning that does not start included. -/
theorem accounted_always (link : Conn → LinkState) (ps : List (Event Conn × ℤ)) :
    radio.Always World.Accounted (World.start link) ps :=
  Machine.always_iff_after.2 (fun _ _ hw =>
    (oneOf_or_stopped hw).elim World.OneOf.accounted World.Stopped.accounted) ps

/-- **When the client keeps going.**  In every state exactly one of scanning and connected,
if and only if no step of the run stops it. -/
theorem oneOf_iff_goes (link : Conn → LinkState) (ps : List (Event Conn × ℤ)) :
    radio.Always World.OneOf (World.start link) ps ↔ radio.Meets Goes (World.start link) ps :=
  Machine.always_iff_meets (fun _ h => h) (fun _ _ _ h hp hv => h.goes hp hv)
    (fun _ _ _ h hp hv => (h.stopped hp hv).not_oneOf) (World.oneOf_start link)

/-- **It does not recover.**  Where a run has led out of scanning and connected, every
continuation stays out, without a connection. -/
theorem stopped_always (link : Conn → LinkState) (ps : List (Event Conn × ℤ)) {w : World Conn}
    (hw : radio.after (World.start link) ps = some w) (hout : ¬ w.OneOf)
    (qs : List (Event Conn × ℤ)) : radio.Always World.Stopped w qs :=
  Machine.always_iff_after.2 (fun _ _ => Machine.after_of_step (fun _ _ _ h hv => h.step hv)
    ((oneOf_or_stopped hw).resolve_left hout)) qs

/-- The attempt that `scan_connecting_error` reports was the last one, also when the stack
makes another connection. -/
theorem stopped_always_connecting_error :
    radio.Always World.Stopped
      (⟨⟨false, none, fun _ => 0⟩, fun _ => .pending⟩ : World Bool)
      [(.connected true 0, 0), (.disconnected true 19, 0)] :=
  stopped_always (fun _ => .pending) [(.scanConnectingError, 0)] rfl
    (World.Stopped.not_oneOf ⟨rfl, rfl, fun _ => rfl⟩) _

end Link
end NrfSamples
