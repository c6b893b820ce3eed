/-
# CBOR data items and the byte strings that encode them

An item is an unsigned or negative integer, a byte or text string, an array, a
map, a tagged item or a primitive value.  `Encodes xs bs` says that `bs` is the
encodings of the items `xs`, one after the other: every head may have any width
that fits, arrays and maps may be of definite length or end with a break byte.
The items of a map are its keys and values in turn.  Strings are of definite
length.

`readString` and `readInt` read one item from the front of a byte string; each
reads exactly the encodings of its kind of item (`readString_append`,
`readString_sound`, `readInt_append`, `readInt_sound`).
-/

import NrfSamples.Cbor.Head

namespace NrfSamples
namespace Cbor

/-- A data item. -/
inductive Item
  | uint (n : ℕ)
  | nint (n : ℕ)
  | bytes (s : List UInt8)
  | text (s : List UInt8)
  | array (xs : List Item)
  | map (kvs : List Item)
  | tag (n : ℕ) (x : Item)
  | prim (a n : ℕ)

/-- The item of an integer: `nint n` is `-1 - n`. -/
def Item.int (v : ℤ) : Item := if 0 ≤ v then .uint v.toNat else .nint (-1 - v).toNat

theorem Item.int_injective : Function.Injective Item.int := by
  intro v v' h
  unfold Item.int at h
  split_ifs at h with hv hv' hv'
  · have := Item.uint.inj h
    omega
  · have := Item.nint.inj h
    omega

/-- The items `false` and `true`. -/
def Item.bool (b : Bool) : Item := if b then .prim 21 21 else .prim 20 20

/-- The bytes of an ASCII text. -/
def ascii (s : String) : List UInt8 := s.toList.map fun c => UInt8.ofNat c.toNat

/-- The value of a text key in a map. -/
def lookup (key : List UInt8) : List Item → Option Item
  | .text s :: v :: kvs => if s = key then some v else lookup key kvs
  | _ :: _ :: kvs => lookup key kvs
  | _ => none

/-- The value of a text key, if it is an unsigned integer. -/
def lookupUint (key : List UInt8) (kvs : List Item) : Option ℕ :=
  match lookup key kvs with
  | some (.uint n) => some n
  | _ => none

/-- The value of a text key, if it is a byte string. -/
def lookupBytes (key : List UInt8) (kvs : List Item) : Option (List UInt8) :=
  match lookup key kvs with
  | some (.bytes s) => some s
  | _ => none

/-- The byte string is the encodings of the items, one after the other. -/
inductive Encodes : List Item → List UInt8 → Prop
  | nil : Encodes [] []
  | uint {w : Width} {n : ℕ} {ys : List Item} {c : List UInt8} :
      w.Fits n → Encodes ys c → Encodes (.uint n :: ys) (head 0 w n ++ c)
  | nint {w : Width} {n : ℕ} {ys : List Item} {c : List UInt8} :
      w.Fits n → Encodes ys c → Encodes (.nint n :: ys) (head 1 w n ++ c)
  | bytes {w : Width} {s : List UInt8} {ys : List Item} {c : List UInt8} :
      w.Fits s.length → Encodes ys c → Encodes (.bytes s :: ys) (head 2 w s.length ++ (s ++ c))
  | text {w : Width} {s : List UInt8} {ys : List Item} {c : List UInt8} :
      w.Fits s.length → Encodes ys c → Encodes (.text s :: ys) (head 3 w s.length ++ (s ++ c))
  | array {w : Width} {xs ys : List Item} {b c : List UInt8} :
      w.Fits xs.length → Encodes xs b → Encodes ys c →
        Encodes (.array xs :: ys) (head 4 w xs.length ++ (b ++ c))
  | arrayIndef {xs ys : List Item} {b c : List UInt8} :
      Encodes xs b → Encodes ys c →
        Encodes (.array xs :: ys) (indefByte 4 :: (b ++ indefByte 7 :: c))
  | map {w : Width} {n : ℕ} {kvs ys : List Item} {b c : List UInt8} :
      w.Fits n → kvs.length = 2 * n → Encodes kvs b → Encodes ys c →
        Encodes (.map kvs :: ys) (head 5 w n ++ (b ++ c))
  | mapIndef {n : ℕ} {kvs ys : List Item} {b c : List UInt8} :
      kvs.length = 2 * n → Encodes kvs b → Encodes ys c →
        Encodes (.map kvs :: ys) (indefByte 5 :: (b ++ indefByte 7 :: c))
  | tag {w : Width} {n : ℕ} {x : Item} {ys : List Item} {b c : List UInt8} :
      w.Fits n → Encodes [x] b → Encodes ys c → Encodes (.tag n x :: ys) (head 6 w n ++ (b ++ c))
  | prim {w : Width} {n : ℕ} {ys : List Item} {c : List UInt8} :
      w.Fits n → Encodes ys c → Encodes (.prim (w.additional n) n :: ys) (head 7 w n ++ c)

/-- Every integer of 64 bits has an encoding in every width that fits. -/
theorem Encodes.int {v : ℤ} {w : Width} {ys : List Item} {c : List UInt8}
    (hw : w.Fits (if 0 ≤ v then v.toNat else (-1 - v).toNat)) (h : Encodes ys c) :
    Encodes (.int v :: ys)
      (head (if 0 ≤ v then 0 else 1) w (if 0 ≤ v then v.toNat else (-1 - v).toNat) ++ c) := by
  unfold Item.int
  split_ifs at hw ⊢
  · exact .uint hw h
  · exact .nint hw h

/-- No encoding of an item begins with the break byte. -/
theorem Encodes.ne_break {x : Item} {ys : List Item} {a r s : List UInt8}
    (h : Encodes (x :: ys) a) : a ++ r ≠ indefByte 7 :: s := by
  intro heq
  have hbreak : ∀ m, m < 8 → ∀ {n : ℕ} {w : Width} {t : List UInt8}, w.Fits n →
      head m w n ++ t ++ r ≠ indefByte 7 :: s := by
    intro m hm n w t hw he
    have hread := readHead_head hm hw (t ++ r)
    rw [← List.append_assoc, he, readHead_indefByte (by norm_num)] at hread
    cases hread
  cases h with
  | uint hw _ => exact hbreak 0 (by norm_num) hw heq
  | nint hw _ => exact hbreak 1 (by norm_num) hw heq
  | bytes hw _ => exact hbreak 2 (by norm_num) hw heq
  | text hw _ => exact hbreak 3 (by norm_num) hw heq
  | array hw _ _ => exact hbreak 4 (by norm_num) hw heq
  | arrayIndef _ _ => exact absurd (List.cons.inj heq).1 (by decide)
  | map hw _ _ _ => exact hbreak 5 (by norm_num) hw heq
  | mapIndef _ _ _ => exact absurd (List.cons.inj heq).1 (by decide)
  | tag hw _ _ => exact hbreak 6 (by norm_num) hw heq
  | prim hw _ => exact hbreak 7 (by norm_num) hw heq

/-- An item takes at least one byte. -/
theorem Encodes.ne_nil {x : Item} {ys : List Item} {a : List UInt8} (h : Encodes (x :: ys) a) :
    a ≠ [] := by
  rintro rfl
  exact h.ne_break (r := [indefByte 7]) rfl

/-! ### Taking an encoding apart -/

theorem Encodes.nil_inv {b : List UInt8} (h : Encodes [] b) : b = [] := by
  cases h
  rfl

/-- The first item, then the others. -/
theorem encodes_cons_iff {x : Item} {ys : List Item} {d : List UInt8} :
    Encodes (x :: ys) d ↔ ∃ a c, Encodes [x] a ∧ Encodes ys c ∧ d = a ++ c := by
  constructor
  · intro h
    cases h with
    | uint hw hc => exact ⟨_, _, .uint hw .nil, hc, by simp⟩
    | nint hw hc => exact ⟨_, _, .nint hw .nil, hc, by simp⟩
    | bytes hw hc => exact ⟨_, _, .bytes hw .nil, hc, by simp⟩
    | text hw hc => exact ⟨_, _, .text hw .nil, hc, by simp⟩
    | array hw hb hc => exact ⟨_, _, .array hw hb .nil, hc, by simp⟩
    | arrayIndef hb hc => exact ⟨_, _, .arrayIndef hb .nil, hc, by simp⟩
    | map hw hn hb hc => exact ⟨_, _, .map hw hn hb .nil, hc, by simp⟩
    | mapIndef hn hb hc => exact ⟨_, _, .mapIndef hn hb .nil, hc, by simp⟩
    | tag hw hb hc => exact ⟨_, _, .tag hw hb .nil, hc, by simp⟩
    | prim hw hc => exact ⟨_, _, .prim hw .nil, hc, by simp⟩
  · rintro ⟨a, c, ha, hc, rfl⟩
    cases ha with
    | uint hw hz => simpa [hz.nil_inv] using Encodes.uint hw hc
    | nint hw hz => simpa [hz.nil_inv] using Encodes.nint hw hc
    | bytes hw hz => simpa [hz.nil_inv] using Encodes.bytes hw hc
    | text hw hz => simpa [hz.nil_inv] using Encodes.text hw hc
    | array hw hb hz => simpa [hz.nil_inv] using Encodes.array hw hb hc
    | arrayIndef hb hz => simpa [hz.nil_inv] using Encodes.arrayIndef hb hc
    | map hw hn hb hz => simpa [hz.nil_inv] using Encodes.map hw hn hb hc
    | mapIndef hn hb hz => simpa [hz.nil_inv] using Encodes.mapIndef hn hb hc
    | tag hw hb hz => simpa [hz.nil_inv] using Encodes.tag hw hb hc
    | prim hw hz => simpa [hz.nil_inv] using Encodes.prim hw hc

theorem Encodes.text_inv {s : List UInt8} {ys : List Item} {b : List UInt8}
    (h : Encodes (.text s :: ys) b) :
    ∃ (w : Width) (c : List UInt8), w.Fits s.length ∧ Encodes ys c ∧
      b = head 3 w s.length ++ (s ++ c) := by
  cases h with
  | text hw hc => exact ⟨_, _, hw, hc, rfl⟩

theorem Encodes.bytes_inv {s : List UInt8} {ys : List Item} {b : List UInt8}
    (h : Encodes (.bytes s :: ys) b) :
    ∃ (w : Width) (c : List UInt8), w.Fits s.length ∧ Encodes ys c ∧
      b = head 2 w s.length ++ (s ++ c) := by
  cases h with
  | bytes hw hc => exact ⟨_, _, hw, hc, rfl⟩

theorem Encodes.int_inv {v : ℤ} {ys : List Item} {b : List UInt8}
    (h : Encodes (.int v :: ys) b) :
    ∃ (w : Width) (c : List UInt8), w.Fits (if 0 ≤ v then v.toNat else (-1 - v).toNat) ∧
      Encodes ys c ∧
      b = head (if 0 ≤ v then 0 else 1) w (if 0 ≤ v then v.toNat else (-1 - v).toNat) ++ c := by
  unfold Item.int at h
  split_ifs at h ⊢
  · cases h with
    | uint hw hc => exact ⟨_, _, hw, hc, rfl⟩
  · cases h with
    | nint hw hc => exact ⟨_, _, hw, hc, rfl⟩

theorem Encodes.prim_inv {a n : ℕ} {ys : List Item} {b : List UInt8}
    (h : Encodes (.prim a n :: ys) b) :
    ∃ (w : Width) (c : List UInt8), w.Fits n ∧ a = w.additional n ∧ Encodes ys c ∧
      b = head 7 w n ++ c := by
  generalize hx : Item.prim a n = x at h
  cases h with
  | prim hw hc =>
    obtain ⟨rfl, rfl⟩ := Item.prim.inj hx
    exact ⟨_, _, hw, rfl, hc, rfl⟩
  | _ => cases hx

/-- The head of an array (`m = 4`) or map (`m = 5`) that announces `n` elements or
pairs, or the byte that announces no number of them. -/
def OpenHead (m : ℕ) : Option ℕ → List UInt8 → Prop
  | none, h => h = [indefByte m]
  | some n, h => ∃ w : Width, w.Fits n ∧ h = head m w n

/-- The bytes begin with the head of a map of `n` pairs and the keys and values
`kvs`; `rest` follows. -/
def Opens (n : Option ℕ) (kvs : List Item) (rest bs : List UInt8) : Prop :=
  ∃ h b, OpenHead 5 n h ∧ Encodes kvs b ∧ bs = h ++ (b ++ rest)

/-- What follows the pairs of a map that ends there. -/
def Closes (kvs : List Item) : Option ℕ → List UInt8 → Prop
  | some n, rest => kvs.length = 2 * n ∧ rest = []
  | none, rest => rest = [indefByte 7]

/-- **A map is its head, its pairs and its end.** -/
theorem encodes_map_iff {kvs : List Item} {bs : List UInt8} (heven : kvs.length % 2 = 0) :
    Encodes [.map kvs] bs ↔ ∃ n rest, Opens n kvs rest bs ∧ Closes kvs n rest := by
  constructor
  · intro h
    cases h with
    | map hw hn hb hc =>
      rw [hc.nil_inv]
      exact ⟨some _, [], ⟨_, _, ⟨_, hw, rfl⟩, hb, rfl⟩, hn, rfl⟩
    | mapIndef hn hb hc =>
      rw [hc.nil_inv]
      exact ⟨none, [indefByte 7], ⟨_, _, rfl, hb, rfl⟩, rfl⟩
  · rintro ⟨n, rest, ⟨h, b, hh, hb, rfl⟩, hclose⟩
    cases n with
    | some n =>
      obtain ⟨w, hw, rfl⟩ := hh
      obtain ⟨hn, rfl⟩ := hclose
      exact .map hw hn hb .nil
    | none =>
      obtain rfl : h = [indefByte 5] := hh
      obtain rfl : rest = [indefByte 7] := hclose
      exact .mapIndef (n := kvs.length / 2) (by omega) hb .nil

/-- The head of a map and what follows it are determined. -/
theorem OpenHead.unique {n n' : Option ℕ} {h h' r r' : List UInt8} (hh : OpenHead 5 n h)
    (hh' : OpenHead 5 n' h') (heq : h ++ r = h' ++ r') : n = n' ∧ r = r' := by
  have hne : ∀ {k : ℕ} {w : Width} {t u : List UInt8}, w.Fits k →
      head 5 w k ++ t ≠ indefByte 5 :: u := by
    intro k w t u hw he
    have hread := readHead_head (show 5 < 8 by norm_num) hw t
    rw [he, readHead_indefByte (by norm_num)] at hread
    cases hread
  cases n with
  | none =>
    obtain rfl : h = [indefByte 5] := hh
    cases n' with
    | none =>
      obtain rfl : h' = [indefByte 5] := hh'
      exact ⟨rfl, (List.cons.inj heq).2⟩
    | some k =>
      obtain ⟨w, hw, rfl⟩ := hh'
      exact absurd heq.symm (hne hw)
  | some k =>
    obtain ⟨w, hw, rfl⟩ := hh
    cases n' with
    | none =>
      obtain rfl : h' = [indefByte 5] := hh'
      exact absurd heq (hne hw)
    | some k' =>
      obtain ⟨w', hw', rfl⟩ := hh'
      obtain ⟨_, rfl, hr⟩ := head_append_inj (by norm_num) (by norm_num) hw hw' heq
      exact ⟨rfl, hr⟩

/-! ### Reading one item -/

/-- Reads a string of major type `m`. -/
def readString (m : ℕ) (bs : List UInt8) : Option (List UInt8 × List UInt8) :=
  match readHead bs with
  | some (m', n, r) => if m' = m ∧ n ≤ r.length then some (r.take n, r.drop n) else none
  | none => none

theorem readString_append {m : ℕ} {w : Width} {s : List UInt8} (hm : m < 8)
    (hw : w.Fits s.length) (r : List UInt8) :
    readString m (head m w s.length ++ (s ++ r)) = some (s, r) := by
  simp [readString, readHead_head hm hw]

theorem readString_sound {m : ℕ} {bs s r : List UInt8} (h : readString m bs = some (s, r)) :
    ∃ w : Width, w.Fits s.length ∧ bs = head m w s.length ++ (s ++ r) := by
  unfold readString at h
  split at h
  · rename_i m' n r' hread
    split_ifs at h with hc
    obtain ⟨rfl, hlen⟩ := hc
    simp only [Option.some.injEq, Prod.mk.injEq] at h
    obtain ⟨rfl, rfl⟩ := h
    obtain ⟨w, hw, _, hbs⟩ := readHead_sound hread
    have hl : (r'.take n).length = n := List.length_take_of_le hlen
    exact ⟨w, by rwa [hl], by rw [hl, List.take_append_drop]; exact hbs⟩
  · cases h

/-- Reads an integer. -/
def readInt (bs : List UInt8) : Option (ℤ × List UInt8) :=
  match readHead bs with
  | some (0, n, r) => some ((n : ℤ), r)
  | some (1, n, r) => some (-1 - (n : ℤ), r)
  | _ => none

theorem readInt_append {v : ℤ} {w : Width}
    (hw : w.Fits (if 0 ≤ v then v.toNat else (-1 - v).toNat)) (r : List UInt8) :
    readInt (head (if 0 ≤ v then 0 else 1) w (if 0 ≤ v then v.toNat else (-1 - v).toNat) ++ r) =
      some (v, r) := by
  unfold readInt
  split_ifs at hw ⊢ with hv
  · rw [readHead_head (by norm_num) hw]
    simp [Int.toNat_of_nonneg hv]
  · rw [readHead_head (by norm_num) hw]
    simp only [Option.some.injEq, Prod.mk.injEq, and_true]
    omega

theorem readInt_sound {bs r : List UInt8} {v : ℤ} (h : readInt bs = some (v, r)) :
    ∃ w : Width, w.Fits (if 0 ≤ v then v.toNat else (-1 - v).toNat) ∧
      bs = head (if 0 ≤ v then 0 else 1) w (if 0 ≤ v then v.toNat else (-1 - v).toNat) ++ r := by
  unfold readInt at h
  split at h
  · rename_i n r' hread
    simp only [Option.some.injEq, Prod.mk.injEq] at h
    obtain ⟨rfl, rfl⟩ := h
    obtain ⟨w, hw, _, hbs⟩ := readHead_sound hread
    simp only [Int.natCast_nonneg, if_true, Int.toNat_natCast]
    exact ⟨w, hw, hbs⟩
  · rename_i n r' hread
    simp only [Option.some.injEq, Prod.mk.injEq] at h
    obtain ⟨rfl, rfl⟩ := h
    obtain ⟨w, hw, _, hbs⟩ := readHead_sound hread
    have hneg : ¬ (0 : ℤ) ≤ -1 - (n : ℤ) := by omega
    have hn : (-1 - (-1 - (n : ℤ))).toNat = n := by omega
    simp only [hneg, if_false, hn]
    exact ⟨w, hw, hbs⟩
  · cases h

end Cbor
end NrfSamples
