/-
# What the decoding calls read

`Reads xs c c'` says that between the positions `c` and `c'` of one list or map
stand the encodings of the items `xs`.  The calls for strings and integers read
exactly that (`tstr_eq_some`, `bstr_eq_some`, `int32_eq_some`), one call after
another reads one item after another (`reads_cons_iff`), and a list or map is
read by opening it, reading its items and closing it (`Reads.array`,
`Reads.map`).  `mapStart_begin` is the first call on a payload.
-/

import NrfSamples.Zcbor.Decoder

namespace NrfSamples
namespace Zcbor

open Cbor

/-- From one position to another stand the encodings of the items. -/
structure Reads (xs : List Item) (c c' : Cursor) : Prop where
  rest : ∃ b, Encodes xs b ∧ c.rest = b ++ c'.rest
  elems : c.elems = c'.elems.map (· + xs.length)
  stack : c.stack = c'.stack
  room : c.room = c'.room

theorem reads_nil_iff {c c' : Cursor} : Reads [] c c' ↔ c = c' := by
  constructor
  · rintro ⟨⟨b, hb, hrest⟩, helems, hstack, hroom⟩
    obtain ⟨r, e, s, n⟩ := c
    obtain ⟨r', e', s', n'⟩ := c'
    rw [hb.nil_inv] at hrest
    cases e' <;> simp_all
  · rintro rfl
    exact ⟨⟨[], .nil, rfl⟩, by cases c.elems <;> rfl, rfl, rfl⟩

/-- **The first item, then the others.** -/
theorem reads_cons_iff {x : Item} {ys : List Item} {c c'' : Cursor} :
    Reads (x :: ys) c c'' ↔ ∃ c', Reads [x] c c' ∧ Reads ys c' c'' := by
  constructor
  · rintro ⟨⟨b, hb, hrest⟩, helems, hstack, hroom⟩
    obtain ⟨a, d, ha, hd, rfl⟩ := encodes_cons_iff.1 hb
    refine ⟨⟨d ++ c''.rest, c''.elems.map (· + ys.length), c''.stack, c''.room⟩,
      ⟨⟨a, ha, by rw [hrest, List.append_assoc]⟩, ?_, hstack, hroom⟩,
      ⟨⟨d, hd, rfl⟩, rfl, rfl, rfl⟩⟩
    rw [helems, Option.map_map]
    rfl
  · rintro ⟨c', ⟨⟨a, ha, hrest⟩, helems, hstack, hroom⟩, ⟨⟨d, hd, hrest'⟩, helems', hstack', hroom'⟩⟩
    refine ⟨⟨a ++ d, encodes_cons_iff.2 ⟨a, d, ha, hd, rfl⟩, ?_⟩, ?_, hstack.trans hstack',
      hroom.trans hroom'⟩
    · rw [hrest, hrest', List.append_assoc]
    · rw [helems, helems', Option.map_map]
      rfl

theorem reads_append_iff {xs ys : List Item} {c c'' : Cursor} :
    Reads (xs ++ ys) c c'' ↔ ∃ c', Reads xs c c' ∧ Reads ys c' c'' := by
  induction xs generalizing c with
  | nil => simp [reads_nil_iff]
  | cons x xs ih =>
    rw [List.cons_append, reads_cons_iff]
    constructor
    · rintro ⟨c', hx, hrest⟩
      obtain ⟨d, hxs, hys⟩ := ih.1 hrest
      exact ⟨d, reads_cons_iff.2 ⟨c', hx, hxs⟩, hys⟩
    · rintro ⟨d, hxxs, hys⟩
      obtain ⟨c', hx, hxs⟩ := reads_cons_iff.1 hxxs
      exact ⟨c', hx, ih.2 ⟨d, hxs, hys⟩⟩

/-- One element may follow, and it is counted. -/
theorem count_eq_some {c : Cursor} {k : Option ℕ} :
    c.count = some k ↔ c.elems = k.map (· + 1) := by
  obtain ⟨r, e, s, n⟩ := c
  cases e with
  | none => cases k <;> simp [Cursor.count]
  | some e =>
    cases e with
    | zero => cases k <;> simp [Cursor.count]
    | succ e => cases k <;> simp [Cursor.count, eq_comm]

/-- A call that reads one element, in terms of what its reader reads. -/
theorem element_eq_some {α : Type} {read : List UInt8 → Option (α × List UInt8)} {a : α}
    {c c' : Cursor} :
    c.element read = some (a, c') ↔
      read c.rest = some (a, c'.rest) ∧ c.elems = c'.elems.map (· + 1) ∧ c.stack = c'.stack ∧
        c.room = c'.room := by
  constructor
  · intro h
    obtain ⟨k, r, hk, hread, rfl⟩ := Cursor.element_some h
    exact ⟨hread, count_eq_some.1 hk, rfl, rfl⟩
  · rintro ⟨hread, helems, hstack, hroom⟩
    rw [Cursor.element_eq (count_eq_some.2 helems) hread, hstack, hroom]

/-- A reader that reads exactly the encodings of an item makes a call that does. -/
theorem element_reads {α : Type} {read : List UInt8 → Option (α × List UInt8)} {a : α}
    {x : Item} (h : ∀ bs r, read bs = some (a, r) ↔ ∃ b, Encodes [x] b ∧ bs = b ++ r)
    {c c' : Cursor} : c.element read = some (a, c') ↔ Reads [x] c c' := by
  rw [element_eq_some, h]
  exact ⟨fun ⟨h₁, h₂, h₃, h₄⟩ => ⟨h₁, h₂, h₃, h₄⟩, fun ⟨h₁, h₂, h₃, h₄⟩ => ⟨h₁, h₂, h₃, h₄⟩⟩

theorem readString_text {s bs r : List UInt8} :
    readString 3 bs = some (s, r) ↔ ∃ b, Encodes [.text s] b ∧ bs = b ++ r := by
  constructor
  · intro h
    obtain ⟨w, hw, rfl⟩ := readString_sound h
    exact ⟨head 3 w s.length ++ (s ++ []), .text hw .nil, by simp⟩
  · rintro ⟨b, hb, rfl⟩
    obtain ⟨w, d, hw, hd, rfl⟩ := hb.text_inv
    rw [hd.nil_inv, List.append_assoc, List.append_nil, readString_append (by norm_num) hw]

theorem readString_bytes {s bs r : List UInt8} :
    readString 2 bs = some (s, r) ↔ ∃ b, Encodes [.bytes s] b ∧ bs = b ++ r := by
  constructor
  · intro h
    obtain ⟨w, hw, rfl⟩ := readString_sound h
    exact ⟨head 2 w s.length ++ (s ++ []), .bytes hw .nil, by simp⟩
  · rintro ⟨b, hb, rfl⟩
    obtain ⟨w, d, hw, hd, rfl⟩ := hb.bytes_inv
    rw [hd.nil_inv, List.append_assoc, List.append_nil, readString_append (by norm_num) hw]

theorem readInt_int {v : ℤ} {bs r : List UInt8} :
    readInt bs = some (v, r) ↔ ∃ b, Encodes [.int v] b ∧ bs = b ++ r := by
  constructor
  · intro h
    obtain ⟨w, hw, rfl⟩ := readInt_sound h
    exact ⟨_, .int hw .nil, by rw [List.append_nil]⟩
  · rintro ⟨b, hb, rfl⟩
    obtain ⟨w, d, hw, hd, rfl⟩ := hb.int_inv
    rw [hd.nil_inv, List.append_nil, readInt_append hw]

/-- **`zcbor_tstr_decode` reads a text.** -/
theorem tstr_eq_some {s : List UInt8} {c c' : Cursor} :
    c.tstr = some (s, c') ↔ Reads [.text s] c c' :=
  element_reads fun _ _ => readString_text

/-- **`zcbor_bstr_decode` reads a byte string.** -/
theorem bstr_eq_some {s : List UInt8} {c c' : Cursor} :
    c.bstr = some (s, c') ↔ Reads [.bytes s] c c' :=
  element_reads fun _ _ => readString_bytes

/-- The values of `int32_t`. -/
def FitsInt32 (v : ℤ) : Prop := -2 ^ 31 ≤ v ∧ v < 2 ^ 31

instance (v : ℤ) : Decidable (FitsInt32 v) := inferInstanceAs (Decidable (_ ∧ _))

/-- **`zcbor_int32_decode` reads an integer that fits.** -/
theorem int32_eq_some {v : ℤ} {c c' : Cursor} :
    c.int32 = some (v, c') ↔ Reads [.int v] c c' ∧ FitsInt32 v := by
  have hread : c.int32 = some (v, c') ↔ c.element readInt = some (v, c') ∧ FitsInt32 v := by
    rw [Cursor.int32, element_eq_some, element_eq_some, readInt32_eq_some]
    exact ⟨fun ⟨⟨h, hv⟩, hc⟩ => ⟨⟨h, hc⟩, hv⟩, fun ⟨⟨h, hc⟩, hv⟩ => ⟨⟨h, hv⟩, hc⟩⟩
  rw [hread, element_reads fun _ _ => readInt_int]

/-- Reads a simple value: the additional information of its head, and its argument. -/
def readSimple : List UInt8 → Option ((ℕ × ℕ) × List UInt8)
  | [] => none
  | b :: bs =>
      match readHead (b :: bs) with
      | some (7, n, r) => some ((b.toNat % 32, n), r)
      | _ => none

/-- The value that `zcbor_bool_expect` looks at. -/
def Cursor.simple : Cursor → Option ((ℕ × ℕ) × Cursor) := Cursor.element readSimple

theorem readSimple_prim {a n : ℕ} {bs r : List UInt8} :
    readSimple bs = some ((a, n), r) ↔ ∃ b, Encodes [.prim a n] b ∧ bs = b ++ r := by
  have hadditional : ∀ {w : Width}, w.Fits n →
      (initialByte 7 (w.additional n)).toNat % 32 = w.additional n := by
    intro w hw
    have := Width.additional_lt hw
    rw [initialByte_toNat (by norm_num) (by omega)]
    omega
  constructor
  · intro h
    cases bs with
    | nil => cases h
    | cons b bs =>
      rw [readSimple] at h
      split at h
      · rename_i n' r' hread
        simp only [Option.some.injEq, Prod.mk.injEq] at h
        obtain ⟨⟨rfl, rfl⟩, rfl⟩ := h
        obtain ⟨w, hw, -, hbs⟩ := readHead_sound hread
        refine ⟨head 7 w n' ++ [], ?_, by rw [List.append_nil, hbs]⟩
        rw [(List.cons.inj (hbs.trans (List.cons_append ..))).1, hadditional hw]
        exact .prim hw .nil
      · cases h
  · rintro ⟨b, hb, rfl⟩
    obtain ⟨w, d, hw, rfl, hd, rfl⟩ := hb.prim_inv
    rw [hd.nil_inv, List.append_nil]
    have hread := readHead_head (show 7 < 8 by norm_num) hw r
    rw [head, List.cons_append] at hread ⊢
    rw [readSimple, hread, hadditional hw]
    rfl

theorem simple_eq_some {a n : ℕ} {c c' : Cursor} :
    c.simple = some ((a, n), c') ↔ Reads [.prim a n] c c' :=
  element_reads fun _ _ => readSimple_prim

/-- **`zcbor_bool_expect` reads any simple value**, and says whether it is the expected
one. -/
theorem boolExpect_eq (b : Bool) (c : Cursor) :
    c.boolExpect b = c.simple.map fun p => (decide (p.1.2 = if b then 21 else 20), p.2) := by
  have hread : ∀ bs, readExpect b bs =
      (readSimple bs).map fun p => (decide (p.1.2 = if b then 21 else 20), p.2) := by
    intro bs
    cases bs with
    | nil => rfl
    | cons x xs =>
      rw [readExpect]
      split
      · rename_i n r h
        simp [readSimple, h]
      · rename_i h
        have hnone : readSimple (x :: xs) = none := by
          rw [readSimple]
          split
          · rename_i n r h'
            exact (h n r h').elim
          · rfl
        rw [hnone]
        rfl
  rw [Cursor.boolExpect, Cursor.simple, Cursor.element, Cursor.element, hread]
  cases c.count with
  | none => rfl
  | some k => cases readSimple c.rest <;> rfl

/-! ### Lists and maps -/

/-- What `zcbor_map_start_decode` and `zcbor_list_start_decode` need and do, read
from the head of the list or map. -/
theorem start_eq_some {m perEntry : ℕ} {c c' : Cursor} (hm : m < 8) :
    c.start m perEntry = some ((), c') ↔
      ∃ n h, OpenHead m n h ∧ c.rest = h ++ c'.rest ∧ c'.elems = n.map (perEntry * ·) ∧
        c.room = c'.room + 1 ∧ ∃ k, c.elems = k.map (· + 1) ∧ c'.stack = k :: c.stack := by
  obtain ⟨bs, elems, stack, room⟩ := c
  obtain ⟨bs', elems', stack', room'⟩ := c'
  constructor
  · intro h
    unfold Cursor.start at h
    split at h
    · rename_i room₀ k hroom hk
      obtain rfl : room = room₀ + 1 := hroom
      have hcount := count_eq_some.1 hk
      split_ifs at h with hindef
      · obtain ⟨t, ht⟩ := List.head?_eq_some_iff.1 hindef
        simp only [Option.some.injEq, Prod.mk.injEq, true_and, Cursor.mk.injEq] at h ht
        obtain ⟨rfl, rfl, rfl, rfl⟩ := h
        exact ⟨none, _, rfl, by rw [ht]; rfl, rfl, rfl, k, hcount, rfl⟩
      · split at h
        · rename_i m' n r hread
          split_ifs at h with hmm
          obtain rfl := hmm
          simp only [Option.some.injEq, Prod.mk.injEq, true_and, Cursor.mk.injEq] at h
          obtain ⟨rfl, rfl, rfl, rfl⟩ := h
          obtain ⟨w, hw, _, hbs⟩ := readHead_sound hread
          exact ⟨some n, _, ⟨w, hw, rfl⟩, hbs, rfl, rfl, k, hcount, rfl⟩
        · cases h
    · cases h
  · rintro ⟨n, h, hh, hrest, helems, hroom, k, hk, hstack⟩
    dsimp only at hrest helems hroom hk hstack
    subst hrest helems hroom hstack
    cases n with
    | none =>
      obtain rfl : h = [indefByte m] := hh
      exact Cursor.start_indef (count_eq_some.2 hk)
    | some n =>
      obtain ⟨w, hw, rfl⟩ := hh
      exact Cursor.start_head hm hw (count_eq_some.2 hk)

/-- **The first call on a payload.**  It succeeds when the payload begins with the
head of a map. -/
theorem mapStart_begin {payload : List UInt8} {e room : ℕ} {c : Cursor} :
    Cursor.mapStart ⟨payload, some (e + 1), [], room + 1⟩ = some ((), c) ↔
      ∃ n h, OpenHead 5 n h ∧ payload = h ++ c.rest ∧
        c = ⟨c.rest, n.map (2 * ·), [some e], room⟩ := by
  rw [Cursor.mapStart, start_eq_some (by norm_num)]
  obtain ⟨r, elems, stack, room'⟩ := c
  constructor
  · rintro ⟨n, h, hh, hrest, helems, hroom, k, hk, hstack⟩
    refine ⟨n, h, hh, hrest, ?_⟩
    obtain rfl : k = some e := by
      cases k with
      | none => cases hk
      | some k => simpa [eq_comm] using hk
    simp only [Cursor.mk.injEq, true_and]
    exact ⟨helems, hstack, by simpa [eq_comm] using hroom⟩
  · rintro ⟨n, h, hh, hrest, hc⟩
    simp only [Cursor.mk.injEq, true_and] at hc
    obtain ⟨rfl, rfl, rfl⟩ := hc
    exact ⟨n, h, hh, hrest, rfl, rfl, some e, rfl, rfl⟩

/-- **Open, read, close.**  What stands for one array or one map is read by these
calls; `items` are what is between. -/
theorem Reads.nested {m perEntry : ℕ} {x : Item} {items : List Item} {c c' : Cursor}
    (hm : m < 8) (h : Reads [x] c c') (hroom : 0 < c.room)
    (hx : ∀ b, Encodes [x] b →
      (∃ (w : Width) (n : ℕ) (d : List UInt8), w.Fits n ∧ items.length = perEntry * n ∧
        Encodes items d ∧ b = head m w n ++ d) ∨
      ∃ d, Encodes items d ∧ b = indefByte m :: (d ++ [indefByte 7])) :
    ∃ c₁ c₂, c.start m perEntry = some ((), c₁) ∧ Reads items c₁ c₂ ∧
      c₂.finish = some ((), c') ∧ c₁.room + 1 = c.room := by
  obtain ⟨⟨b, hb, hrest⟩, helems, hstack, hroom'⟩ := h
  obtain ⟨bs, elems, stack, room⟩ := c
  obtain ⟨r, elems', stack', room'⟩ := c'
  dsimp only at hrest helems hstack hroom hroom'
  subst hrest helems hstack hroom'
  obtain ⟨room, rfl⟩ : ∃ k, room = k + 1 := ⟨room - 1, by omega⟩
  rcases hx b hb with ⟨w, n, d, hw, hn, hd, rfl⟩ | ⟨d, hd, rfl⟩
  · refine ⟨⟨d ++ r, some (perEntry * n), elems' :: stack, room⟩,
      ⟨r, some 0, elems' :: stack, room⟩, ?_, ⟨⟨d, hd, rfl⟩, ?_, rfl, rfl⟩, rfl, rfl⟩
    · exact (start_eq_some hm).2 ⟨some n, _, ⟨w, hw, rfl⟩, by rw [List.append_assoc], rfl, rfl,
        elems', by simp, rfl⟩
    · simp [hn]
  · refine ⟨⟨d ++ (indefByte 7 :: r), none, elems' :: stack, room⟩,
      ⟨indefByte 7 :: r, none, elems' :: stack, room⟩, ?_, ⟨⟨d, hd, rfl⟩, rfl, rfl, rfl⟩,
      rfl, rfl⟩
    exact (start_eq_some hm).2 ⟨none, _, rfl, by simp, rfl, rfl, elems', by simp, rfl⟩

/-- What the calls opened, read and closed stands there as one array or one map. -/
theorem nested_reads {m perEntry : ℕ} {x : Item} {items : List Item} {c c₁ c₂ c' : Cursor}
    (hm : m < 8) (hstart : c.start m perEntry = some ((), c₁)) (hitems : Reads items c₁ c₂)
    (hfinish : c₂.finish = some ((), c'))
    (hx : ∀ d, Encodes items d →
      (∀ (w : Width) (n : ℕ), w.Fits n → items.length = perEntry * n →
        Encodes [x] (head m w n ++ d)) ∧
      Encodes [x] (indefByte m :: (d ++ [indefByte 7]))) : Reads [x] c c' := by
  obtain ⟨n, h, hh, hrest, helems, hroom, k, hk, hstack⟩ := (start_eq_some hm).1 hstart
  obtain ⟨⟨d, hd, hrest₁⟩, helems₁, hstack₁, hroom₁⟩ := hitems
  obtain ⟨hdef, hindef⟩ := hx d hd
  obtain ⟨r₂, e₂, s₂, room₂⟩ := c₂
  dsimp only at hrest₁ helems₁ hstack₁ hroom₁
  rw [hstack] at hstack₁
  subst hstack₁
  have hroom' : c.room = room₂ + 1 := by rw [hroom, hroom₁]
  unfold Cursor.finish at hfinish
  split at hfinish
  · -- no element is left
    rename_i k' ks hs he
    dsimp only at he hs
    obtain ⟨rfl, rfl⟩ := List.cons.inj hs
    simp only [Option.some.injEq, Prod.mk.injEq, true_and] at hfinish
    subst hfinish he
    cases n with
    | none => rw [helems] at helems₁; cases helems₁
    | some n =>
      obtain ⟨w, hw, rfl⟩ := hh
      rw [helems] at helems₁
      have hlen : items.length = perEntry * n := by simpa using helems₁.symm
      exact ⟨⟨_, hdef w n hw hlen, by rw [hrest, hrest₁, List.append_assoc]⟩, hk, rfl, hroom'⟩
  · -- the break byte is next
    rename_i k' ks hs he
    dsimp only at he hs
    obtain ⟨rfl, rfl⟩ := List.cons.inj hs
    split_ifs at hfinish with hbreak
    obtain ⟨t, rfl⟩ := List.head?_eq_some_iff.1 hbreak
    simp only [Option.some.injEq, Prod.mk.injEq, true_and, List.tail_cons] at hfinish
    subst hfinish he
    cases n with
    | some n => rw [helems] at helems₁; cases helems₁
    | none =>
      obtain rfl : h = [indefByte m] := hh
      exact ⟨⟨_, hindef, by rw [hrest, hrest₁]; simp⟩, hk, rfl, hroom'⟩
  · cases hfinish

theorem Reads.array {xs : List Item} {c c' : Cursor} (h : Reads [.array xs] c c')
    (hroom : 0 < c.room) :
    ∃ c₁ c₂, c.listStart = some ((), c₁) ∧ Reads xs c₁ c₂ ∧ c₂.finish = some ((), c') ∧
      c₁.room + 1 = c.room := by
  refine h.nested (by norm_num) hroom fun b hb => ?_
  cases hb with
  | array hw hd hc => exact .inl ⟨_, _, _, hw, by simp, hd, by rw [hc.nil_inv, List.append_nil]⟩
  | arrayIndef hd hc => exact .inr ⟨_, hd, by rw [hc.nil_inv]⟩

theorem Reads.map {kvs : List Item} {c c' : Cursor} (h : Reads [.map kvs] c c')
    (hroom : 0 < c.room) :
    ∃ c₁ c₂, c.mapStart = some ((), c₁) ∧ Reads kvs c₁ c₂ ∧ c₂.finish = some ((), c') ∧
      c₁.room + 1 = c.room := by
  refine h.nested (by norm_num) hroom fun b hb => ?_
  cases hb with
  | map hw hn hd hc => exact .inl ⟨_, _, _, hw, hn, hd, by rw [hc.nil_inv, List.append_nil]⟩
  | mapIndef hn hd hc => exact .inr ⟨_, hd, by rw [hc.nil_inv]⟩

/-- **An array is opened, read and closed.** -/
theorem reads_array_iff {xs : List Item} {c c' : Cursor} (hroom : 0 < c.room) :
    Reads [.array xs] c c' ↔ ∃ c₁ c₂, c.listStart = some ((), c₁) ∧ Reads xs c₁ c₂ ∧
      c₂.finish = some ((), c') := by
  constructor
  · intro h
    obtain ⟨c₁, c₂, hstart, hitems, hfinish, -⟩ := h.array hroom
    exact ⟨c₁, c₂, hstart, hitems, hfinish⟩
  · rintro ⟨c₁, c₂, hstart, hitems, hfinish⟩
    refine nested_reads (by norm_num) hstart hitems hfinish fun d hd => ⟨fun w n hw hn => ?_, ?_⟩
    · rw [Nat.one_mul] at hn
      subst hn
      simpa using Encodes.array hw hd .nil
    · exact .arrayIndef hd .nil

/-- **A map is opened, read and closed.** -/
theorem reads_map_iff {kvs : List Item} {c c' : Cursor} (hroom : 0 < c.room)
    (heven : kvs.length % 2 = 0) :
    Reads [.map kvs] c c' ↔ ∃ c₁ c₂, c.mapStart = some ((), c₁) ∧ Reads kvs c₁ c₂ ∧
      c₂.finish = some ((), c') := by
  constructor
  · intro h
    obtain ⟨c₁, c₂, hstart, hitems, hfinish, -⟩ := h.map hroom
    exact ⟨c₁, c₂, hstart, hitems, hfinish⟩
  · rintro ⟨c₁, c₂, hstart, hitems, hfinish⟩
    refine nested_reads (by norm_num) hstart hitems hfinish fun d hd => ⟨fun w n hw hn => ?_, ?_⟩
    · simpa using Encodes.map hw hn hd .nil
    · exact .mapIndef (n := kvs.length / 2) (by omega) hd .nil

end Zcbor
end NrfSamples
