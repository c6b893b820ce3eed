/-
# The rows of an image list

The body of the loop in `smp_list_rsp_proc`
(`bootloader_samples/client_smp/smp_client_ble/src/main.c`) decodes eight rows,
each a key and a value, and prints one line for each of them.

`decodeEntry_eq`: the body is these rows, one after another.  `rowsProc_ends`:
what the rows do, as a function of the position and of nothing else of the
decoder (`runRows`): they are all read, or one of them is the last thing that
happens.  `readRows_eq_some`: they are read exactly if keys and values of the
right kinds stand there.
-/

import NrfSamples.Smp.ListRsp

namespace NrfSamples
namespace Smp

open Cbor Zcbor

/-- A decoded value; a simple value is the additional information of its head and its
argument. -/
inductive Value
  | int (v : ℤ)
  | text (s : List UInt8)
  | bytes (s : List UInt8)
  | simple (a n : ℕ)
  deriving DecidableEq, Repr

def Value.item : Value → Item
  | .int v => .int v
  | .text s => .text s
  | .bytes s => .bytes s
  | .simple a n => .prim a n

/-- What a value is decoded as: an `int32_t`, a text that goes into an array of this
size, the hash, or a flag; with the line printed if it is not one. -/
inductive Kind
  | int32 (msg : String)
  | text (array : String) (size : ℕ) (msg : String)
  | hash
  | flag (msg : String)

/-- The line printed when the value is not of its kind. -/
def Kind.msg : Kind → String
  | .int32 msg => msg
  | .text _ _ msg => msg
  | .hash => "Decoding error, hash value (err: %d)\n"
  | .flag msg => msg

/-- A row: the key that an image has there, the array that the key is copied to, its
size, the line printed if the key is no text, and the kind of the value. -/
structure Row where
  name : String
  keyArray : String
  keySize : ℕ
  keyMsg : String
  kind : Kind

def slotRow : Row :=
  ⟨"slot", "slot_key", 5, "Decoding error, slot key (err: %d)\n",
    .int32 "Decoding error, slot value (err: %d)\n"⟩

def versionRow : Row :=
  ⟨"version", "version_key", 5, "Decoding error, version key (err: %d)\n",
    .text "version_value" 5 "Decoding error, version value (err: %d)\n"⟩

def hashRow : Row := ⟨"hash", "hash_key", 5, "Decoding error, hash key (err: %d)\n", .hash⟩

def flagRows : List Row :=
  [⟨"bootable", "bootable_key", 10, "Decoding error, hash key (err: %d)\n",
      .flag "Decoding error, bootable value (err: %d)\n"⟩,
    ⟨"pending", "pending_key", 10, "Decoding error, pending key (err: %d)\n",
      .flag "Decoding error, pending value (err: %d)\n"⟩,
    ⟨"confirmed", "confirmed_key", 10, "Decoding error, confirmed key (err: %d)\n",
      .flag "Decoding error, confirmed value (err: %d)\n"⟩,
    ⟨"active", "active_key", 10, "Decoding error, active key (err: %d)\n",
      .flag "Decoding error, active value (err: %d)\n"⟩,
    ⟨"permanent", "permanent_key", 10, "Decoding error, permanent key (err: %d)\n",
      .flag "Decoding error, permanent value (err: %d)\n"⟩]

/-- The rows of an entry. -/
def rows : List Row := slotRow :: versionRow :: hashRow :: flagRows

/-! ### Reading rows -/

/-- The value is one that the handler takes for the kind. -/
def Kind.Accepts : Kind → Value → Prop
  | .int32 _, .int v => FitsInt32 v
  | .text _ _ _, .text _ => True
  | .hash, .bytes _ => True
  | .flag _, .simple _ _ => True
  | _, _ => False

def Kind.read : Kind → Cursor → Option (Value × Cursor)
  | .int32 _, c => c.int32.map fun p => (.int p.1, p.2)
  | .text _ _ _, c => c.tstr.map fun p => (.text p.1, p.2)
  | .hash, c => c.bstr.map fun p => (.bytes p.1, p.2)
  | .flag _, c => c.simple.map fun p => (.simple p.1.1 p.1.2, p.2)

theorem Kind.read_eq_some {k : Kind} {v : Value} {c c' : Cursor} :
    k.read c = some (v, c') ↔ k.Accepts v ∧ Reads [v.item] c c' := by
  cases k <;> cases v <;>
    simp [Kind.read, Kind.Accepts, Value.item, int32_eq_some, tstr_eq_some, bstr_eq_some,
      simple_eq_some, and_comm]

/-- A key and a value. -/
abbrev Pair : Type := List UInt8 × Value

/-- The keys and values as items. -/
def pairItems (kvs : List Pair) : List Item := kvs.flatMap fun p => [.text p.1, p.2.item]

/-- The values are of the kinds of the rows. -/
def Fills (rs : List Row) (kvs : List Pair) : Prop :=
  List.Forall₂ (fun (r : Row) (p : Pair) => r.kind.Accepts p.2) rs kvs

def Row.read (row : Row) (c : Cursor) : Option (Pair × Cursor) :=
  c.tstr.bind fun p => (row.kind.read p.2).map fun q => ((p.1, q.1), q.2)

def readRows : List Row → Cursor → Option (List Pair × Cursor)
  | [], c => some ([], c)
  | row :: rs, c => (row.read c).bind fun p => (readRows rs p.2).map fun q => (p.1 :: q.1, q.2)

theorem Row.read_eq_some {row : Row} {p : Pair} {c c' : Cursor} :
    row.read c = some (p, c') ↔ row.kind.Accepts p.2 ∧ Reads [.text p.1, p.2.item] c c' := by
  obtain ⟨k, v⟩ := p
  rw [reads_cons_iff]
  simp only [Row.read, Option.bind_eq_some_iff, Option.map_eq_some_iff, Prod.exists,
    Prod.mk.injEq, tstr_eq_some]
  constructor
  · rintro ⟨k', c₁, hkey, v', c₂, hvalue, ⟨rfl, rfl⟩, rfl⟩
    obtain ⟨ha, hread⟩ := Kind.read_eq_some.1 hvalue
    exact ⟨ha, c₁, hkey, hread⟩
  · rintro ⟨ha, c₁, hkey, hread⟩
    exact ⟨k, c₁, hkey, v, c', Kind.read_eq_some.2 ⟨ha, hread⟩, ⟨rfl, rfl⟩, rfl⟩

/-- **The rows are read exactly if keys and values of their kinds stand there.**
Induction on the rows. -/
theorem readRows_eq_some {rs : List Row} {kvs : List Pair} {c c' : Cursor} :
    readRows rs c = some (kvs, c') ↔ Fills rs kvs ∧ Reads (pairItems kvs) c c' := by
  induction rs generalizing kvs c with
  | nil =>
    simp only [readRows, Option.some.injEq, Prod.mk.injEq]
    constructor
    · rintro ⟨rfl, rfl⟩
      exact ⟨.nil, reads_nil_iff.2 rfl⟩
    · rintro ⟨hfills, hreads⟩
      cases hfills
      exact ⟨rfl, reads_nil_iff.1 hreads⟩
  | cons row rs ih =>
    constructor
    · intro h
      obtain ⟨⟨p, c₁⟩, hrow, h⟩ := Option.bind_eq_some_iff.1 h
      obtain ⟨⟨kvs', c₂⟩, hrest, heq⟩ := Option.map_eq_some_iff.1 h
      simp only [Prod.mk.injEq] at heq
      obtain ⟨rfl, rfl⟩ := heq
      obtain ⟨ha, hread⟩ := Row.read_eq_some.1 hrow
      obtain ⟨hfills, hreads⟩ := ih.1 hrest
      exact ⟨.cons ha hfills, reads_append_iff.2 ⟨c₁, hread, hreads⟩⟩
    · rintro ⟨hfills, hreads⟩
      cases hfills with
      | @cons _ p _ kvs ha hfills =>
        obtain ⟨c₁, hread, hrest⟩ := reads_append_iff.1
          (show Reads ([.text p.1, p.2.item] ++ pairItems kvs) c c' from hreads)
        rw [readRows, Row.read_eq_some.2 ⟨ha, hread⟩, Option.bind_some, ih.2 ⟨hfills, hrest⟩]
        rfl

/-! ### The rows as a program -/

/-- The value of a row, with what is printed of it. -/
def Kind.proc (z : ZcborDecoder) (slot : ℕ) (key : List UInt8) : Kind → Proc z.State Unit
  | .int32 msg => do
      let value ← orReturn z z.int32Decode msg
      printk "      %s: %d\n" [.str key, .int value]
  | .text array size msg => do
      let value ← decodeText z array size msg
      printk "      %s: %s\n" [.str key, .str value]
  | .hash => decodeHash z slot key
  | .flag msg => decodeFlag z key msg

def Row.proc (z : ZcborDecoder) (slot : ℕ) (row : Row) : Proc z.State Unit := do
  let key ← decodeText z row.keyArray row.keySize row.keyMsg
  row.kind.proc z slot key

def rowsProc (z : ZcborDecoder) (slot : ℕ) : List Row → Proc z.State Unit
  | [] => pure ()
  | row :: rs => do
      row.proc z slot
      rowsProc z slot rs

/-- The heading of an entry. -/
def heading (slot : ℕ) : Print :=
  ⟨if slot = 0 then "\n-----------PRIMARY IMAGE-----------\n"
    else "\n-----------SECONDARY IMAGE-----------\n", []⟩

/-- **The body of the loop is its rows.** -/
theorem decodeEntry_eq (z : ZcborDecoder) (slot : ℕ) :
    decodeEntry z slot = (do
      printk (heading slot).fmt (heading slot).args
      rowsProc z slot rows
      let _ ← call z.mapEndDecode) := by
  simp only [decodeEntry, heading, rows, slotRow, versionRow, hashRow, flagRows, rowsProc,
    Row.proc, Kind.proc, bind_assoc, pure_bind]

/-! ### What the rows do -/

/-- What decoding a hash does: the stores, the hash of the slot, and the lines. -/
def hashEffect (slot : ℕ) (key hash : List UInt8) (e : Effect) : Effect where
  hashPrimary := if slot = 0 then overwrite e.hashPrimary hash else e.hashPrimary
  hashSecondary := if slot = 0 then e.hashSecondary else overwrite e.hashSecondary hash
  gives := e.gives
  log := e.log ++ (⟨"      %s: 0x", [.str key]⟩ ::
    (hash.map (fun b => ⟨"%x", [.hex b]⟩) ++ [⟨"\n", []⟩]))
  stores := e.stores ++ [⟨"hash_value", 40, hash.length⟩,
    ⟨if slot = 0 then "hash_value_primary_slot" else "hash_value_secondary_slot", 33, hash.length⟩,
    ⟨"hash_value", 40, hash.length + 1⟩]

/-- What decoding a value does, when it is of its kind. -/
def Kind.effect (slot : ℕ) (key : List UInt8) : Kind → Value → Effect → Effect
  | .int32 _, .int v, e => e.print ⟨"      %s: %d\n", [.str key, .int v]⟩
  | .text array size _, .text s, e =>
      (e.store ⟨array, size, s.length + 1⟩).print ⟨"      %s: %s\n", [.str key, .str (cString s)]⟩
  | .hash, .bytes s, e => hashEffect slot key s e
  | .flag _, .simple _ n, e =>
      e.print ⟨"      %s: %s\n",
        [.str key, .str (ascii (if n = 21 then "true" else "false"))]⟩
  | _, _, e => e

/-- How a part of the decoding ends: with the last thing that the handler does, or at a
position where it goes on. -/
inductive Outcome
  | stop (e : Effect)
  | goOn (c : Cursor) (e : Effect)

def Outcome.effect : Outcome → Effect
  | .stop e => e
  | .goOn _ e => e

/-- One part, and then another. -/
def Outcome.andThen : Outcome → (Cursor → Effect → Outcome) → Outcome
  | .stop e, _ => .stop e
  | .goOn c e, f => f c e

/-- What follows a call: it read something, or the handler prints `line` and returns. -/
def Outcome.ofRead {α : Type} (reading : Option (α × Cursor)) (line : Print) (e : Effect)
    (next : α → Cursor → Outcome) : Outcome :=
  match reading with
  | none => .stop (e.print line)
  | some (a, c) => next a c

def Kind.run (slot : ℕ) (key : List UInt8) (k : Kind) (c : Cursor) (e : Effect) : Outcome :=
  .ofRead (k.read c) ⟨k.msg, [.err]⟩ e fun v c' => .goOn c' (k.effect slot key v e)

def Row.run (slot : ℕ) (row : Row) (c : Cursor) (e : Effect) : Outcome :=
  .ofRead c.tstr ⟨row.keyMsg, [.err]⟩ e fun key c' =>
    row.kind.run slot (cString key) c' (e.store ⟨row.keyArray, row.keySize, key.length + 1⟩)

/-- What the rows do. -/
def runRows (slot : ℕ) : List Row → Cursor → Effect → Outcome
  | [], c, e => .goOn c e
  | row :: rs, c, e => (row.run slot c e).andThen (runRows slot rs)

/-- What a row does when it is read. -/
def Row.effect (slot : ℕ) (row : Row) (p : Pair) (e : Effect) : Effect :=
  row.kind.effect slot (cString p.1) p.2 (e.store ⟨row.keyArray, row.keySize, p.1.length + 1⟩)

def rowsEffect (slot : ℕ) : List Row → List Pair → Effect → Effect
  | row :: rs, p :: kvs, e => rowsEffect slot rs kvs (row.effect slot p e)
  | _, _, e => e

theorem runRows_append (slot : ℕ) (rs rs' : List Row) (c : Cursor) (e : Effect) :
    runRows slot (rs ++ rs') c e = (runRows slot rs c e).andThen (runRows slot rs') := by
  induction rs generalizing c e with
  | nil => rfl
  | cons row rs ih =>
    rw [List.cons_append, runRows, runRows]
    cases row.run slot c e with
    | stop e => rfl
    | goOn c e => exact ih c e

/-- A row is read and has its effect, or it is the last thing that happens, before or
behind the copy of its key. -/
theorem Row.run_eq (slot : ℕ) (row : Row) (c : Cursor) (e : Effect) :
    (∃ p c', row.read c = some (p, c') ∧ row.run slot c e = .goOn c' (row.effect slot p e)) ∨
      row.read c = none ∧ ∃ (e' : Effect) (msg : String),
        row.run slot c e = .stop (e'.print ⟨msg, [.err]⟩) ∧
        (e' = e ∨ ∃ n, e' = e.store ⟨row.keyArray, row.keySize, n⟩) := by
  rw [Row.run, Row.read]
  cases hkey : c.tstr with
  | none => exact .inr ⟨rfl, e, _, rfl, .inl rfl⟩
  | some k =>
    obtain ⟨key, c₁⟩ := k
    cases hvalue : row.kind.read c₁ with
    | none =>
      refine .inr ⟨by rw [Option.bind_some, hvalue]; rfl,
        e.store ⟨row.keyArray, row.keySize, key.length + 1⟩, row.kind.msg, ?_, .inr ⟨_, rfl⟩⟩
      simp only [Outcome.ofRead, Kind.run, hvalue]
    | some v =>
      refine .inl ⟨(key, v.1), v.2, by rw [Option.bind_some, hvalue]; rfl, ?_⟩
      simp only [Outcome.ofRead, Kind.run, hvalue, Row.effect]

/-- **Rows that are read.**  Induction on the rows. -/
theorem runRows_of_read (slot : ℕ) {rs : List Row} {kvs : List Pair} {c c' : Cursor}
    (h : readRows rs c = some (kvs, c')) (e : Effect) :
    runRows slot rs c e = .goOn c' (rowsEffect slot rs kvs e) := by
  induction rs generalizing kvs c e with
  | nil =>
    cases h
    rfl
  | cons row rs ih =>
    rw [readRows] at h
    rcases row.run_eq slot c e with ⟨p, c₁, hread, hrun⟩ | ⟨hread, -⟩
    · rw [hread, Option.bind_some] at h
      obtain ⟨q, hrest, heq⟩ := Option.map_eq_some_iff.1 h
      cases heq
      rw [runRows, hrun]
      exact ih hrest _
    · rw [hread] at h
      cases h

/-- **Rows that are not.** -/
theorem runRows_of_none (slot : ℕ) {rs : List Row} {c : Cursor} (h : readRows rs c = none)
    (e : Effect) : ∃ (e' : Effect) (msg : String),
      runRows slot rs c e = .stop (e'.print ⟨msg, [.err]⟩) := by
  induction rs generalizing c e with
  | nil => cases h
  | cons row rs ih =>
    rw [readRows] at h
    rcases row.run_eq slot c e with ⟨p, c₁, hread, hrun⟩ | ⟨-, e', msg, hrun, -⟩
    · rw [hread, Option.bind_some, Option.map_eq_none_iff] at h
      rw [runRows, hrun]
      exact ih h _
    · exact ⟨e', msg, by rw [runRows, hrun]; rfl⟩

/-- A program does what the outcome says. -/
def Ends (z : ZcborDecoder) (result : Option Unit × Exec z.State) : Outcome → Prop
  | .stop e => result.1 = none ∧ result.2.eff = e
  | .goOn c e => result.1 = some () ∧ z.view result.2.zsd = some c ∧ result.2.eff = e

section Ends

variable {z : ZcborDecoder} {s : Exec z.State} {c : Cursor}

theorem Ends.bind {p : Proc z.State Unit} {g : Unit → Proc z.State Unit} {o : Outcome}
    {f : Cursor → Effect → Outcome} (hp : Ends z (p s) o)
    (hg : ∀ t c, z.view t.zsd = some c → Ends z (g () t) (f c t.eff)) :
    Ends z ((p >>= g) s) (o.andThen f) := by
  rcases h : p s with ⟨a, t⟩
  rw [h] at hp
  cases o with
  | stop e =>
    obtain ⟨rfl, rfl⟩ := hp
    rw [Proc.bind_none h]
    exact ⟨rfl, rfl⟩
  | goOn c e =>
    obtain ⟨rfl, hview, rfl⟩ := hp
    rw [Proc.bind_some h]
    exact hg t c hview

theorem ends_return (t : Exec z.State) : Ends z (none, t) (.stop t.eff) := ⟨rfl, rfl⟩

section Reads

variable {R : Option Unit × Exec z.State → Outcome → Prop}
  (hR : ∀ t, R (none, t) (.stop t.eff))

include hR

/-- A call, and the program that goes on with what it read. -/
theorem orReturn_ofRead {α : Type} {f : z.State → Option α × z.State}
    {read : Cursor → Option (α × Cursor)} (msg : String) {g : α → Proc z.State Unit}
    (hf : ∀ s, Follows z.view (f s) ((z.view s).bind read)) (hs : z.view s.zsd = some c)
    (next : α → Cursor → Effect → Outcome)
    (hg : ∀ a t c', z.view t.zsd = some c' → R (g a t) (next a c' t.eff)) :
    R ((orReturn z f msg >>= g) s)
      (.ofRead (read c) ⟨msg, [.err]⟩ s.eff fun a c' => next a c' s.eff) := by
  cases hread : read c with
  | none =>
    obtain ⟨t, hrun, heff⟩ := orReturn_none msg hf hs hread
    rw [Proc.bind_none hrun, Outcome.ofRead, ← heff]
    exact hR t
  | some p =>
    obtain ⟨t, hrun, hview, heff⟩ := orReturn_some msg hf hs hread
    rw [Proc.bind_some hrun, ← heff]
    exact hg p.1 t p.2 hview

theorem decodeText_ofRead (array : String) (size : ℕ) (msg : String)
    {g : List UInt8 → Proc z.State Unit} (hs : z.view s.zsd = some c)
    (next : List UInt8 → Cursor → Effect → Outcome)
    (hg : ∀ v t c', z.view t.zsd = some c' → R (g (cString v) t) (next v c' t.eff)) :
    R ((decodeText z array size msg >>= g) s)
      (.ofRead c.tstr ⟨msg, [.err]⟩ s.eff fun v c' =>
        next v c' (s.eff.store ⟨array, size, v.length + 1⟩)) := by
  simp only [decodeText, bind_assoc, pure_bind]
  exact orReturn_ofRead hR msg z.tstrDecode_follows hs
    (fun v c' e => next v c' (e.store ⟨array, size, v.length + 1⟩))
    fun v t c' ht => hg v ⟨t.zsd, t.eff.store ⟨array, size, v.length + 1⟩⟩ c' ht

end Reads

theorem Outcome.ofRead_map {α β : Type} (f : α → β) (reading : Option (α × Cursor)) (line : Print)
    (e : Effect) (next : β → Cursor → Outcome) :
    Outcome.ofRead (reading.map fun p => (f p.1, p.2)) line e next =
      .ofRead reading line e fun a => next (f a) := by
  cases reading <;> rfl

/-- The value of a hash row. -/
theorem decodeHash_ends (slot : ℕ) (key : List UInt8) (hs : z.view s.zsd = some c) :
    Ends z (decodeHash z slot key s) (Kind.hash.run slot key c s.eff) := by
  rw [Kind.run, Kind.read, Outcome.ofRead_map]
  refine orReturn_ofRead ends_return _ z.bstrDecode_follows hs
    (fun v c' e => .goOn c' (hashEffect slot key v e)) fun v t c' ht => ?_
  by_cases hslot : slot = 0
  · simp only [hslot, if_true]
    refine ⟨rfl, ht, ?_⟩
    simp [storeTo_bind, effect_bind, printk, effect, Effect.store, Effect.print, hashEffect]
  · simp only [hslot, if_false]
    refine ⟨rfl, ht, ?_⟩
    simp [storeTo_bind, effect_bind, printk, effect, Effect.store, Effect.print, hashEffect, hslot]

/-- The value of a flag row. -/
theorem decodeFlag_ends (slot : ℕ) (key : List UInt8) (msg : String)
    (hs : z.view s.zsd = some c) :
    Ends z (decodeFlag z key msg s) ((Kind.flag msg).run slot key c s.eff) := by
  obtain ⟨hval, hview⟩ := z.boolExpect_view true s.zsd
  rw [hs, Option.bind_some, boolExpect_eq] at hval hview
  rw [decodeFlag, call_bind, call_bind, z.checkError_view, hview, Kind.run, Kind.read]
  cases hread : c.simple with
  | none => exact ⟨rfl, rfl⟩
  | some p =>
    obtain ⟨⟨a, n⟩, c'⟩ := p
    rw [hread] at hval hview
    have hvalue : (z.boolExpect true s.zsd).1 = decide (n = 21) := hval
    rw [hvalue]
    simp only [decide_eq_true_eq]
    exact ⟨rfl, hview, rfl⟩

theorem Kind.proc_ends (slot : ℕ) (key : List UInt8) (k : Kind) (hs : z.view s.zsd = some c) :
    Ends z (k.proc z slot key s) (k.run slot key c s.eff) := by
  cases k with
  | int32 msg =>
    rw [Kind.run, Kind.read, Outcome.ofRead_map]
    exact orReturn_ofRead ends_return msg z.int32Decode_follows hs
      (fun v c' e => .goOn c' (e.print ⟨"      %s: %d\n", [.str key, .int v]⟩))
      fun v t c' ht => ⟨rfl, ht, rfl⟩
  | text array size msg =>
    rw [Kind.run, Kind.read, Outcome.ofRead_map]
    exact decodeText_ofRead ends_return array size msg hs
      (fun v c' e => .goOn c' (e.print ⟨"      %s: %s\n", [.str key, .str (cString v)]⟩))
      fun v t c' ht => ⟨rfl, ht, rfl⟩
  | hash => exact decodeHash_ends slot key hs
  | flag msg => exact decodeFlag_ends slot key msg hs

theorem Row.proc_ends (slot : ℕ) (row : Row) (hs : z.view s.zsd = some c) :
    Ends z (row.proc z slot s) (row.run slot c s.eff) :=
  decodeText_ofRead ends_return _ _ _ hs (fun key c' e => row.kind.run slot (cString key) c' e)
    fun _ _ _ ht => row.kind.proc_ends slot _ ht

/-- **What the rows do.**  Induction on the rows. -/
theorem rowsProc_ends (slot : ℕ) (rs : List Row) (hs : z.view s.zsd = some c) :
    Ends z (rowsProc z slot rs s) (runRows slot rs c s.eff) := by
  induction rs generalizing s c with
  | nil => exact ⟨rfl, hs, rfl⟩
  | cons row rs ih => exact (row.proc_ends slot hs).bind fun t c' ht => ih ht

end Ends

end Smp
end NrfSamples
