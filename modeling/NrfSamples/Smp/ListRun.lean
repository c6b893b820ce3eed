/-
# What an image list does

`smp_list_rsp_proc` in `bootloader_samples/client_smp/smp_client_ble/src/main.c`
as a function of the payload alone: `listEffect_eq` says that every decoder that
behaves as documented has these effects (`listRun`).

The first entry is read where a map starts, or, when none does, right where the
list starts (`entryAt`).  The second one is read if the first one ends and a map
starts behind it (`nextAt`); otherwise the loop ends without a word.

`readList` is what is read when no call ends the handler, and `deliver_list` what
the handler does with a response that fits the buffer.
-/

import NrfSamples.Smp.Fragments
import NrfSamples.Smp.ListRows

namespace NrfSamples
namespace Smp

open Cbor Zcbor

/-- What decoding an entry does, up to its last row. -/
def entryRun (slot : ℕ) (c : Cursor) (e : Effect) : Outcome :=
  runRows slot rows c (e.print (heading slot))

/-- Where the first entry of the list is read. -/
def entryAt (c : Cursor) : Cursor := (c.mapStart.map Prod.snd).getD c

/-- Where the second entry is read, after the rows of the first one. -/
def nextAt (c : Cursor) : Option Cursor := c.finish.bind fun p => p.2.mapStart.map Prod.snd

/-- The line printed when no map starts at the first entry. -/
def slotLines (c : Cursor) : List Print :=
  if c.mapStart.isSome then [] else [⟨"Error decoding slot 0. Err: %d", [.err]⟩]

/-- The second entry, if there is one. -/
def secondRun (c : Cursor) (e : Effect) : Effect :=
  match nextAt c with
  | none => e
  | some c' => (entryRun 1 c' e).effect

/-- The first entry, up to its last row. -/
def firstRun (c : Cursor) (e : Effect) : Outcome :=
  entryRun 0 (entryAt c) { e with log := e.log ++ slotLines c }

/-- The entries. -/
def slotsRun (c : Cursor) (e : Effect) : Effect :=
  match firstRun c e with
  | .stop e => e
  | .goOn c' e => secondRun c' e

/-- What the handler does with a payload. -/
def listRun (payload : List UInt8) (e : Effect) : Effect :=
  Outcome.effect <|
    .ofRead (Cursor.mapStart ⟨payload, some 5, [], 8⟩)
      ⟨"Decoding error 1, start_decode (err: %d)\n", [.err]⟩ e fun _ c =>
    .ofRead c.tstr ⟨"Decoding error 2, images key (err: %d)\n", [.err]⟩ e fun key c =>
    .ofRead c.listStart ⟨"Decoding error, start_decode images->list  (err: %d)\n", [.err]⟩
      (e.store ⟨"images_key", 10, key.length + 1⟩) fun _ c =>
    .stop (slotsRun c (e.store ⟨"images_key", 10, key.length + 1⟩))

section Ends

variable {z : ZcborDecoder} {s : Exec z.State} {c : Cursor}

/-- An entry is decoded up to its last row, and then its map is closed. -/
theorem decodeEntry_cases (slot : ℕ) (hs : z.view s.zsd = some c) :
    (∃ t, decodeEntry z slot s = (none, t) ∧ entryRun slot c s.eff = .stop t.eff) ∨
      ∃ t c', decodeEntry z slot s = (some (), t) ∧ z.view t.zsd = c'.finish.map Prod.snd ∧
        entryRun slot c s.eff = .goOn c' t.eff := by
  have hends : Ends z (rowsProc z slot rows ⟨s.zsd, s.eff.print (heading slot)⟩)
      (entryRun slot c s.eff) := rowsProc_ends slot rows hs
  rw [decodeEntry_eq, printk_bind]
  rcases hrun : rowsProc z slot rows ⟨s.zsd, s.eff.print (heading slot)⟩ with ⟨a, t⟩
  rw [hrun] at hends
  cases hout : entryRun slot c s.eff with
  | stop e =>
    rw [hout] at hends
    obtain ⟨rfl, rfl⟩ := hends
    exact .inl ⟨t, Proc.bind_none hrun, rfl⟩
  | goOn c' e =>
    rw [hout] at hends
    obtain ⟨rfl, hview, rfl⟩ := hends
    have hfinish := (z.mapEndDecode_follows t.zsd).2
    rw [hview, Option.bind_some] at hfinish
    refine .inr ⟨⟨(z.mapEndDecode t.zsd).2, t.eff⟩, c', ?_, hfinish, rfl⟩
    rw [Proc.bind_some hrun, call_bind]
    rfl

/-- The loop from slot 1 on. -/
theorem decodeSlots_second (hs : z.view s.zsd = c.finish.map Prod.snd) :
    (decodeSlots z [1] s).2.eff = secondRun c s.eff := by
  obtain ⟨hval, hview⟩ := z.mapStartDecode_follows s.zsd
  have hnext : ((z.view s.zsd).bind Cursor.mapStart).map Prod.snd = nextAt c := by
    rw [hs, nextAt]
    cases c.finish <;> rfl
  rw [decodeSlots, call_bind, hval, secondRun, ← hnext]
  cases hstart : (z.view s.zsd).bind Cursor.mapStart with
  | none => rfl
  | some p =>
    rw [hstart, Option.map_some] at hview
    change ((decodeEntry z 1 >>= fun _ => decodeSlots z []) ⟨(z.mapStartDecode s.zsd).2, s.eff⟩).2.eff =
      (entryRun 1 p.2 s.eff).effect
    rcases decodeEntry_cases (s := ⟨(z.mapStartDecode s.zsd).2, s.eff⟩) 1 hview with
      ⟨t, hrun, hout⟩ | ⟨t, c', hrun, -, hout⟩
    · rw [Proc.bind_none hrun]
      exact (congrArg Outcome.effect hout).symm
    · rw [Proc.bind_some hrun]
      exact (congrArg Outcome.effect hout).symm

/-- From the first entry on. -/
theorem decodeEntry_slots (hs : z.view s.zsd = some c) :
    ((decodeEntry z 0 >>= fun _ => decodeSlots z [1]) s).2.eff =
      match entryRun 0 c s.eff with
      | .stop e => e
      | .goOn c' e => secondRun c' e := by
  rcases decodeEntry_cases 0 hs with ⟨t, hrun, hout⟩ | ⟨t, c', hrun, hview, hout⟩
  · rw [hout, Proc.bind_none hrun]
  · rw [hout, Proc.bind_some hrun]
    exact decodeSlots_second hview

/-- **The loop over the slots.** -/
theorem decodeSlots_eff (hs : z.view s.zsd = some c) :
    (decodeSlots z [0, 1] s).2.eff = slotsRun c s.eff := by
  obtain ⟨hval, hview⟩ := z.mapStartDecode_follows s.zsd
  rw [hs, Option.bind_some] at hval hview
  rw [decodeSlots, call_bind, slotsRun, firstRun, entryAt, slotLines]
  cases hstart : c.mapStart with
  | none =>
    rw [hstart, Option.map_none] at hval
    have hpop := z.popError_view s.zsd c hs hval
    rw [hval]
    exact decodeEntry_slots (s := ⟨z.popError (z.mapStartDecode s.zsd).2,
      s.eff.print ⟨"Error decoding slot 0. Err: %d", [.err]⟩⟩) hpop
  | some p =>
    rw [hstart, Option.map_some] at hval hview
    rw [hval]
    have heff : ({ s.eff with log := s.eff.log ++ [] } : Effect) = s.eff := by
      rw [List.append_nil]
    change ((decodeEntry z 0 >>= fun _ => decodeSlots z [1]) ⟨(z.mapStartDecode s.zsd).2, s.eff⟩).2.eff =
      match entryRun 0 p.2 { s.eff with log := s.eff.log ++ [] } with
      | .stop e => e
      | .goOn c' e => secondRun c' e
    rw [heff]
    exact decodeEntry_slots (s := ⟨(z.mapStartDecode s.zsd).2, s.eff⟩) hview

/-- A program has the effect of the outcome. -/
def HasEffect (z : ZcborDecoder) (result : Option Unit × Exec z.State) (o : Outcome) : Prop :=
  result.2.eff = o.effect

theorem hasEffect_return (t : Exec z.State) : HasEffect z (none, t) (.stop t.eff) := rfl

/-- The results of the two calls after the loop are ignored. -/
theorem decodeSlots_ends (hs : z.view s.zsd = some c) :
    HasEffect z ((do
      decodeSlots z [0, 1]
      let _ ← call z.listEndDecode
      let _ ← call z.mapEndDecode : Proc z.State Unit) s) (.stop (slotsRun c s.eff)) := by
  have heff := decodeSlots_eff hs
  rcases hrun : decodeSlots z [0, 1] s with ⟨_ | a, t⟩
  · rw [hrun] at heff
    rw [Proc.bind_none hrun]
    exact heff
  · rw [hrun] at heff
    rw [Proc.bind_some hrun]
    exact heff

/-- **What decoding an image list does**, with any decoder. -/
theorem listEffect_eq (z : ZcborDecoder) (payload : List UInt8) (e : Effect) :
    listEffect z payload e = listRun payload e := by
  refine orReturn_ofRead hasEffect_return _ z.mapStartDecode_follows
    (z.newDecodeState_view 10 payload 5) (fun _ c e =>
      .ofRead c.tstr ⟨"Decoding error 2, images key (err: %d)\n", [.err]⟩ e fun key c =>
      .ofRead c.listStart ⟨"Decoding error, start_decode images->list  (err: %d)\n", [.err]⟩
        (e.store ⟨"images_key", 10, key.length + 1⟩) fun _ c =>
      .stop (slotsRun c (e.store ⟨"images_key", 10, key.length + 1⟩))) ?_
  intro _ t c ht
  refine decodeText_ofRead hasEffect_return _ _ _ ht (fun _ c e =>
    .ofRead c.listStart ⟨"Decoding error, start_decode images->list  (err: %d)\n", [.err]⟩ e
      fun _ c => .stop (slotsRun c e)) ?_
  intro key t c ht
  exact orReturn_ofRead hasEffect_return _ z.listStartDecode_follows ht
    (fun _ c e => .stop (slotsRun c e)) fun _ t c ht => decodeSlots_ends ht

end Ends

/-! ### What is read of a payload -/

/-- The first key of the payload, and where it ends. -/
def keyAt (payload : List UInt8) : Option (List UInt8 × Cursor) :=
  (Cursor.mapStart ⟨payload, some 5, [], 8⟩).bind fun p => p.2.tstr

/-- Where the list of the payload begins. -/
def listAt (payload : List UInt8) : Option Cursor :=
  (keyAt payload).bind fun p => p.2.listStart.map Prod.snd

/-- Everything that is read when no call ends the handler: the first key, the rows of
the first entry and of the second one, if there is one, and where they end. -/
structure ListReading where
  key : List UInt8
  first : List Pair
  second : Option (List Pair)
  last : Cursor

/-- The entries, from the first row on. -/
def readEntries (key : List UInt8) (c : Cursor) : Option ListReading :=
  (readRows rows c).bind fun f =>
    match nextAt f.2 with
    | none => some ⟨key, f.1, none, f.2⟩
    | some c' => (readRows rows c').map fun g => ⟨key, f.1, some g.1, g.2⟩

def readList (payload : List UInt8) : Option ListReading :=
  (keyAt payload).bind fun k => k.2.listStart.bind fun l => l.2.mapStart.bind fun m =>
    readEntries k.1 m.2

/-- The payload is one map that begins with this key and the list of these items. -/
def BeginsWith (key : List UInt8) (xs : List Item) (payload : List UInt8) : Prop :=
  ∃ more, Encodes [.map (.text key :: .array xs :: more)] payload

/-- The list ends here, the pairs of the map behind it follow, and nothing after it. -/
def EndsAfter (c : Cursor) : Prop :=
  ∃ c₁ more c₂ d, c.finish = some ((), c₁) ∧ more.length % 2 = 0 ∧ Reads more c₁ c₂ ∧
    c₂.finish = some ((), d) ∧ d.rest = []

theorem start_room {m perEntry : ℕ} {c c' : Cursor} (hm : m < 8)
    (h : c.start m perEntry = some ((), c')) : c.room = c'.room + 1 := by
  obtain ⟨n, hd, -, -, -, hroom, -⟩ := (start_eq_some hm).1 h
  exact hroom

/-- The room left after the key of the list. -/
theorem room_keyAt {payload key : List UInt8} {c : Cursor} (h : keyAt payload = some (key, c)) :
    c.room = 7 := by
  obtain ⟨⟨⟨⟩, c₁⟩, hstart, hkey⟩ := Option.bind_eq_some_iff.1 h
  have hroom := start_room (by norm_num) hstart
  rw [← (tstr_eq_some.1 hkey).room]
  exact (Nat.succ.inj hroom).symm

/-- **How such a payload is read**: the key, the list, its items, and the end. -/
theorem beginsWith_iff {key payload : List UInt8} {xs : List Item} :
    BeginsWith key xs payload ↔ ∃ c c' c'', keyAt payload = some (key, c) ∧
      c.listStart = some ((), c') ∧ Reads xs c' c'' ∧ EndsAfter c'' := by
  constructor
  · rintro ⟨more, henc⟩
    have heven : more.length % 2 = 0 := by
      cases henc with
      | map _ hn _ _ => simp only [List.length_cons] at hn; omega
      | mapIndef hn _ _ => simp only [List.length_cons] at hn; omega
    have hreads : Reads [.map (.text key :: .array xs :: more)] ⟨payload, some 5, [], 8⟩
        ⟨[], some 4, [], 8⟩ := ⟨⟨payload, henc, by rw [List.append_nil]⟩, rfl, rfl, rfl⟩
    obtain ⟨c₁, c₅, hstart, hitems, hend, hroom⟩ := hreads.map (by norm_num)
    obtain ⟨c₂, hkey, hrest⟩ := reads_cons_iff.1 hitems
    obtain ⟨c₄, harray, hmore⟩ := reads_cons_iff.1 hrest
    have hkeyAt : keyAt payload = some (key, c₂) := by
      rw [keyAt, hstart, Option.bind_some]
      exact tstr_eq_some.2 hkey
    obtain ⟨c₃, c₃', hlist, hxs, hfinish⟩ :=
      (reads_array_iff (by rw [room_keyAt hkeyAt]; norm_num)).1 harray
    exact ⟨c₂, c₃, c₃', hkeyAt, hlist, hxs, c₄, more, c₅, _, hfinish, heven, hmore, hend, rfl⟩
  · rintro ⟨c₂, c₃, c₃', hkeyAt, hlist, hxs, c₄, more, c₅, d, hfinish, heven, hmore, hend, hd⟩
    obtain ⟨⟨⟨⟩, c₁⟩, hstart, hkey⟩ := Option.bind_eq_some_iff.1 hkeyAt
    have harray : Reads [.array xs] c₂ c₄ :=
      (reads_array_iff (by rw [room_keyAt hkeyAt]; norm_num)).2 ⟨c₃, c₃', hlist, hxs, hfinish⟩
    have hitems : Reads (.text key :: .array xs :: more) c₁ c₅ :=
      reads_cons_iff.2 ⟨c₂, tstr_eq_some.1 hkey, reads_cons_iff.2 ⟨c₄, harray, hmore⟩⟩
    obtain ⟨⟨b, hb, hrest⟩, -⟩ := (reads_map_iff (by norm_num)
      (by simp only [List.length_cons]; omega)).2 ⟨c₁, c₅, hstart, hitems, hend⟩
    rw [hd, List.append_nil] at hrest
    exact ⟨more, by rwa [show payload = b from hrest]⟩

/-- What decoding does before the entries: it ends without a key, or without a list, or
comes to the entries. -/
theorem listRun_cases (payload : List UInt8) (e : Effect) :
    (keyAt payload = none ∧ ∃ msg, listRun payload e = e.print ⟨msg, [.err]⟩) ∨
      ∃ key c, keyAt payload = some (key, c) ∧
        (c.listStart = none ∧ (∃ msg, listRun payload e =
            (e.store ⟨"images_key", 10, key.length + 1⟩).print ⟨msg, [.err]⟩) ∨
          ∃ c', c.listStart = some ((), c') ∧
            listRun payload e = slotsRun c' (e.store ⟨"images_key", 10, key.length + 1⟩)) := by
  rw [keyAt, listRun]
  cases hmap : Cursor.mapStart ⟨payload, some 5, [], 8⟩ with
  | none => exact .inl ⟨rfl, _, rfl⟩
  | some p =>
    obtain ⟨⟨⟩, c₁⟩ := p
    rw [Option.bind_some]
    dsimp only [Outcome.ofRead]
    cases hkey : c₁.tstr with
    | none => exact .inl ⟨rfl, _, rfl⟩
    | some k =>
      obtain ⟨key, c⟩ := k
      refine .inr ⟨key, c, rfl, ?_⟩
      cases hlist : c.listStart with
      | none => exact .inl ⟨rfl, _, by simp only [hlist]; rfl⟩
      | some l =>
        obtain ⟨⟨⟩, c'⟩ := l
        exact .inr ⟨c', rfl, by simp only [hlist]; rfl⟩

/-- What the entries do: the first one is the last thing that happens, or the second one
follows. -/
theorem slotsRun_of_none {c : Cursor} (h : readRows rows (entryAt c) = none) (e : Effect) :
    slotsRun c e = (firstRun c e).effect := by
  obtain ⟨e', msg, hrun⟩ := runRows_of_none 0 h
    (({ e with log := e.log ++ slotLines c } : Effect).print (heading 0))
  rw [slotsRun, show firstRun c e = .stop (e'.print ⟨msg, [.err]⟩) from hrun]
  rfl

theorem slotsRun_of_read {c c' : Cursor} {kvs : List Pair}
    (h : readRows rows (entryAt c) = some (kvs, c')) (e : Effect) :
    slotsRun c e = secondRun c' (firstRun c e).effect := by
  rw [slotsRun, show firstRun c e = .goOn c' (rowsEffect 0 rows kvs _) from runRows_of_read 0 h _]
  rfl

/-- What holds after the entries, if it holds after a second entry exactly when it held
before and `Q` holds of that entry. -/
theorem slotsRun_iff {P : Effect → Prop} {Q : Cursor → Prop}
    (hsecond : ∀ c e, P (secondRun c e) ↔ P e ∧ ∀ c', nextAt c = some c' → Q c') (c : Cursor)
    (e : Effect) :
    P (slotsRun c e) ↔ P (firstRun c e).effect ∧ ∀ kvs c₁ c₂,
      readRows rows (entryAt c) = some (kvs, c₁) → nextAt c₁ = some c₂ → Q c₂ := by
  cases hread : readRows rows (entryAt c) with
  | none =>
    rw [slotsRun_of_none hread]
    simp
  | some p =>
    obtain ⟨kvs, c₁⟩ := p
    rw [slotsRun_of_read hread, hsecond]
    refine and_congr_right fun _ => ⟨?_, fun h c' hc' => h kvs c₁ c' rfl hc'⟩
    rintro h _ _ c₂ ⟨⟩ hc₂
    exact h c₂ hc₂

/-- **What the handler does with a response that fits the buffer**, however it is
split. -/
theorem deliver_list (z : ZcborDecoder) (m : Memory) {r : Response} (hfits : r.Fits)
    (ps : Parts r) (s : Statics) :
    ∃ pre last, ps.deliver (smpListRspProc z m) s = pre ++ [last] ∧
      CopyParts (fun _ => []) ps.delivered s pre ∧
      last.decoded = (if listCheck.Accepts r.bytes then some (hdrLen r.bytes) else none) ∧
      (listCheck.Accepts r.bytes → last.eff = listRun (payloadOf r.bytes) (s.effect [])) ∧
      (¬ listCheck.Accepts r.bytes → ∃ line, last.eff = (s.effect []).print line) := by
  obtain ⟨pre, last, p, hrun, hpre, -, -, hdecoded, heff⟩ :=
    deliver_fragments listCheck (fun _ => []) [] (listEffect z) m hfits ps s
  refine ⟨pre, last, hrun, hpre, hdecoded, ?_, ?_⟩
  · intro ha
    rw [heff, responseEffect, (listCheck.reject_eq_none _).2 ha]
    exact listEffect_eq z _ _
  · intro ha
    rw [heff, responseEffect]
    cases hreject : listCheck.reject r.bytes with
    | none => exact absurd ((listCheck.reject_eq_none _).1 hreject) ha
    | some line => exact ⟨line, rfl⟩

/-- What holds of all calls, if it holds at the start and whatever line about the header
is printed: it holds of a payload that is decoded. -/
theorem deliver_list_iff (z : ZcborDecoder) (m : Memory) {r : Response} (hfits : r.Fits)
    (ps : Parts r) (s : Statics) {P : Effect → Prop} (hstart : P (s.effect []))
    (hline : ∀ line, P ((s.effect []).print line)) :
    (∀ q ∈ ps.deliver (smpListRspProc z m) s, P q.eff) ↔
      (listCheck.Accepts r.bytes → P (listRun (payloadOf r.bytes) (s.effect []))) := by
  obtain ⟨pre, last, hrun, hpre, -, hyes, hno⟩ := deliver_list z m hfits ps s
  have hlast : last ∈ pre ++ [last] := List.mem_append_right _ (List.mem_singleton_self _)
  rw [hrun]
  constructor
  · intro h ha
    rw [← hyes ha]
    exact h last hlast
  · intro h q hq
    rcases List.mem_append.1 hq with hq | hq
    · obtain ⟨p, heff⟩ := hpre.eff q hq
      rwa [heff]
    · rw [List.mem_singleton.1 hq]
      by_cases ha : listCheck.Accepts r.bytes
      · rw [hyes ha]
        exact h ha
      · obtain ⟨line, heff⟩ := hno ha
        rw [heff]
        exact hline line

end Smp
end NrfSamples
