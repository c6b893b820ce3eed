/-
# Reading CBOR data items

`parseSeq` reads a sequence of items, either a given number of them or all up to
a break byte.  `parseSeq_complete`: it reads every encoding of the items,
whatever widths and lengths the encoder chose, and leaves what follows.  So the
items a byte string encodes are determined (`Encodes.unique`), and
`parseMap`, which reads a byte string that is one map, finds its keys and values
(`parseMap_of_encodes`).

The recursion is on a fuel; one more than the length of the input is enough.
-/

import NrfSamples.Cbor.Item

namespace NrfSamples
namespace Cbor

/-- A map of the items read, if every key has a value. -/
def ofMap (p : List Item × List UInt8) : Option (Item × List UInt8) :=
  if p.1.length % 2 = 0 then some (.map p.1, p.2) else none

/-- The item with a head of major type `m` and argument `n`, read from what
follows the head; `a` is the additional information, `nested` reads sequences. -/
def parseArg (nested : Option ℕ → List UInt8 → Option (List Item × List UInt8))
    (a m n : ℕ) (r : List UInt8) : Option (Item × List UInt8) :=
  match m with
  | 0 => some (.uint n, r)
  | 1 => some (.nint n, r)
  | 2 => if n ≤ r.length then some (.bytes (r.take n), r.drop n) else none
  | 3 => if n ≤ r.length then some (.text (r.take n), r.drop n) else none
  | 4 => (nested (some n) r).map fun p => (.array p.1, p.2)
  | 5 => (nested (some (2 * n)) r).bind ofMap
  | 6 =>
      match nested (some 1) r with
      | some ([x], s) => some (.tag n x, s)
      | _ => none
  | _ => some (.prim a n, r)

/-- Reads one item. -/
def parseItem (nested : Option ℕ → List UInt8 → Option (List Item × List UInt8)) :
    List UInt8 → Option (Item × List UInt8)
  | [] => none
  | b :: bs =>
      if b = indefByte 4 then (nested none bs).map fun p => (.array p.1, p.2)
      else if b = indefByte 5 then (nested none bs).bind ofMap
      else
        match readHead (b :: bs) with
        | some (m, n, r) => parseArg nested (b.toNat % 32) m n r
        | none => none

/-- What follows a sequence that ends here: no item is left to read, or the
break byte is next. -/
def seqEnd : Option ℕ → List UInt8 → Option (List UInt8)
  | some 0, bs => some bs
  | none, b :: bs => if b = indefByte 7 then some bs else none
  | _, _ => none

/-- Reads `k` items for `some k`, the items up to a break byte for `none`. -/
def parseSeq : ℕ → Option ℕ → List UInt8 → Option (List Item × List UInt8)
  | 0, _, _ => none
  | fuel + 1, cnt, bs =>
      match seqEnd cnt bs with
      | some r => some ([], r)
      | none =>
          match parseItem (parseSeq fuel) bs with
          | some (x, r) => (parseSeq fuel (cnt.map (· - 1)) r).map fun p => (x :: p.1, p.2)
          | none => none

/-- The keys and values of a byte string that is one map. -/
def parseMap (bs : List UInt8) : Option (List Item) :=
  match parseSeq (bs.length + 1) (some 1) bs with
  | some ([.map kvs], []) => some kvs
  | _ => none

theorem parseItem_head {nested : Option ℕ → List UInt8 → Option (List Item × List UInt8)}
    {m n : ℕ} {w : Width} (hm : m < 8) (hw : w.Fits n) (r : List UInt8) :
    parseItem nested (head m w n ++ r) = parseArg nested (w.additional n) m n r := by
  have hadd := Width.additional_lt hw
  have hbyte : (initialByte m (w.additional n)).toNat = 32 * m + w.additional n :=
    initialByte_toNat hm (by omega)
  have hne : ∀ k, k < 8 → initialByte m (w.additional n) ≠ indefByte k := by
    intro k hk he
    have := congrArg UInt8.toNat he
    rw [hbyte, indefByte_toNat hk] at this
    omega
  have hmod : (initialByte m (w.additional n)).toNat % 32 = w.additional n := by omega
  have hread := readHead_head hm hw r
  rw [head, List.cons_append] at hread ⊢
  rw [parseItem, if_neg (hne 4 (by norm_num)), if_neg (hne 5 (by norm_num)), hread, hmod]

theorem parseItem_indef {nested : Option ℕ → List UInt8 → Option (List Item × List UInt8)}
    (bs : List UInt8) :
    parseItem nested (indefByte 4 :: bs) = (nested none bs).map (fun p => (.array p.1, p.2)) ∧
      parseItem nested (indefByte 5 :: bs) = (nested none bs).bind ofMap :=
  ⟨rfl, rfl⟩

/-- What `parseSeq` does on the encoding of a sequence with this fuel: it reads
the items and leaves what follows. -/
def ReadsWith (fuel : ℕ) (xs : List Item) (a : List UInt8) : Prop :=
  ∀ r, parseSeq fuel (some xs.length) (a ++ r) = some (xs, r) ∧
    parseSeq fuel none (a ++ indefByte 7 :: r) = some (xs, r)

/-- One item more: the item is read first, then the rest. -/
theorem ReadsWith.cons {fuel : ℕ} {x : Item} {ys : List Item} {b c : List UInt8}
    (hx : Encodes [x] b) (hitem : ∀ t, parseItem (parseSeq fuel) (b ++ t) = some (x, t))
    (ih : ReadsWith fuel ys c) : ReadsWith (fuel + 1) (x :: ys) (b ++ c) := by
  intro r
  have hopen : ∀ t, seqEnd none (b ++ t) = none := by
    intro t
    cases hb : b ++ t with
    | nil => rfl
    | cons d s =>
      rw [seqEnd, if_neg]
      rintro rfl
      exact hx.ne_break hb
  constructor
  · have hmore : seqEnd (some (ys.length + 1)) (b ++ (c ++ r)) = none := by
      cases b ++ (c ++ r) <;> rfl
    rw [List.append_assoc, parseSeq, List.length_cons, hmore, hitem]
    simp only [Option.map_some, Nat.add_sub_cancel, (ih r).1]
  · rw [List.append_assoc, parseSeq, hopen, hitem]
    simp only [Option.map_none, (ih r).2, Option.map_some]

/-- The same for all fuel that the bytes ask for: the item takes at least one of them. -/
theorem readsWith_cons {x : Item} {ys : List Item} {b c : List UInt8} (hx : Encodes [x] b)
    (hitem : ∀ fuel, b.length ≤ fuel → ∀ t, parseItem (parseSeq fuel) (b ++ t) = some (x, t))
    (ih : ∀ fuel, c.length < fuel → ReadsWith fuel ys c) (fuel : ℕ)
    (hf : (b ++ c).length < fuel) : ReadsWith fuel (x :: ys) (b ++ c) := by
  have hpos : 0 < b.length := List.length_pos_iff.2 hx.ne_nil
  rw [List.length_append] at hf
  obtain ⟨fuel, rfl⟩ : ∃ f, fuel = f + 1 := ⟨fuel - 1, by omega⟩
  exact .cons hx (hitem fuel (by omega)) (ih fuel (by omega))

/-- An item with a head in front of its body `b`. -/
theorem readsWith_head {x : Item} {ys : List Item} {m n : ℕ} {w : Width} {b c : List UInt8}
    (hm : m < 8) (hw : w.Fits n) (hx : Encodes [x] (head m w n ++ b))
    (harg : ∀ fuel, b.length < fuel → ∀ t,
      parseArg (parseSeq fuel) (w.additional n) m n (b ++ t) = some (x, t))
    (ih : ∀ fuel, c.length < fuel → ReadsWith fuel ys c) :
    ∀ fuel, (head m w n ++ (b ++ c)).length < fuel →
      ReadsWith fuel (x :: ys) (head m w n ++ (b ++ c)) := by
  rw [← List.append_assoc]
  refine readsWith_cons hx (fun fuel hfuel t => ?_) ih
  rw [List.length_append, length_head] at hfuel
  rw [List.append_assoc, parseItem_head hm hw]
  exact harg fuel (by omega) t

/-- An item between a head of indefinite length and a break byte. -/
theorem readsWith_indef {x : Item} {ys : List Item} {m : ℕ} {b c : List UInt8}
    (hx : Encodes [x] (indefByte m :: (b ++ [indefByte 7])))
    (hitem : ∀ fuel, b.length < fuel → ∀ t,
      parseItem (parseSeq fuel) (indefByte m :: (b ++ indefByte 7 :: t)) = some (x, t))
    (ih : ∀ fuel, c.length < fuel → ReadsWith fuel ys c) :
    ∀ fuel, (indefByte m :: (b ++ indefByte 7 :: c)).length < fuel →
      ReadsWith fuel (x :: ys) (indefByte m :: (b ++ indefByte 7 :: c)) := by
  have happend : ∀ t, indefByte m :: (b ++ [indefByte 7]) ++ t =
      indefByte m :: (b ++ indefByte 7 :: t) := by simp
  rw [← happend c]
  refine readsWith_cons hx (fun fuel hfuel t => ?_) ih
  rw [List.length_cons, List.length_append] at hfuel
  rw [happend t]
  exact hitem fuel (by omega) t

/-- **Every encoding is read.**  Induction on the encoding. -/
theorem parseSeq_complete {xs : List Item} {a : List UInt8} (h : Encodes xs a) :
    ∀ fuel, a.length < fuel → ReadsWith fuel xs a := by
  induction h with
  | nil =>
    intro fuel hf r
    obtain ⟨fuel, rfl⟩ : ∃ f, fuel = f + 1 := ⟨fuel - 1, by simp at hf; omega⟩
    exact ⟨rfl, rfl⟩
  | @uint w n ys c hw _ ih =>
    have hx : Encodes [.uint n] (head 0 w n) := by simpa using Encodes.uint hw .nil
    exact readsWith_cons hx (fun _ _ t => parseItem_head (by norm_num) hw t) ih
  | @nint w n ys c hw _ ih =>
    have hx : Encodes [.nint n] (head 1 w n) := by simpa using Encodes.nint hw .nil
    exact readsWith_cons hx (fun _ _ t => parseItem_head (by norm_num) hw t) ih
  | @bytes w s ys c hw _ ih =>
    have hx : Encodes [.bytes s] (head 2 w s.length ++ s) := by simpa using Encodes.bytes hw .nil
    exact readsWith_head (by norm_num) hw hx (fun fuel _ t => by simp [parseArg]) ih
  | @text w s ys c hw _ ih =>
    have hx : Encodes [.text s] (head 3 w s.length ++ s) := by simpa using Encodes.text hw .nil
    exact readsWith_head (by norm_num) hw hx (fun fuel _ t => by simp [parseArg]) ih
  | @array w xs ys b c hw hb _ ihb ih =>
    have hx : Encodes [.array xs] (head 4 w xs.length ++ b) := by
      simpa using Encodes.array hw hb .nil
    refine readsWith_head (by norm_num) hw hx (fun fuel hfuel t => ?_) ih
    simp only [parseArg, (ihb fuel hfuel t).1, Option.map_some]
  | @arrayIndef xs ys b c hb _ ihb ih =>
    have hx : Encodes [.array xs] (indefByte 4 :: (b ++ [indefByte 7])) := .arrayIndef hb .nil
    refine readsWith_indef hx (fun fuel hfuel t => ?_) ih
    rw [(parseItem_indef _).1, (ihb fuel hfuel t).2, Option.map_some]
  | @map w n kvs ys b c hw hn hb _ ihb ih =>
    have hx : Encodes [.map kvs] (head 5 w n ++ b) := by simpa using Encodes.map hw hn hb .nil
    have heven : kvs.length % 2 = 0 := by omega
    refine readsWith_head (by norm_num) hw hx (fun fuel hfuel t => ?_) ih
    simp only [parseArg, ← hn, (ihb fuel hfuel t).1, Option.bind_some, ofMap, heven, if_true]
  | @mapIndef n kvs ys b c hn hb _ ihb ih =>
    have hx : Encodes [.map kvs] (indefByte 5 :: (b ++ [indefByte 7])) := .mapIndef hn hb .nil
    have heven : kvs.length % 2 = 0 := by omega
    refine readsWith_indef hx (fun fuel hfuel t => ?_) ih
    rw [(parseItem_indef _).2, (ihb fuel hfuel t).2]
    simp only [Option.bind_some, ofMap, heven, if_true]
  | @tag w n x ys b c hw hb _ ihb ih =>
    have hx : Encodes [.tag n x] (head 6 w n ++ b) := by simpa using Encodes.tag hw hb .nil
    refine readsWith_head (by norm_num) hw hx (fun fuel hfuel t => ?_) ih
    have hone := (ihb fuel hfuel t).1
    rw [List.length_singleton] at hone
    simp only [parseArg, hone]
  | @prim w n ys c hw _ ih =>
    have hx : Encodes [.prim (w.additional n) n] (head 7 w n) := by
      simpa using Encodes.prim hw .nil
    exact readsWith_cons hx (fun _ _ t => parseItem_head (by norm_num) hw t) ih

/-- **The items a byte string begins with, and what follows them, are
determined**, given how many there are. -/
theorem Encodes.unique {xs ys : List Item} {a b r s : List UInt8} (hx : Encodes xs a)
    (hy : Encodes ys b) (hlen : xs.length = ys.length) (h : a ++ r = b ++ s) :
    xs = ys ∧ r = s := by
  have hax := (parseSeq_complete hx (a.length + b.length + 1) (by omega) r).1
  have hby := (parseSeq_complete hy (a.length + b.length + 1) (by omega) s).1
  rw [h, hlen, hby] at hax
  simp only [Option.some.injEq, Prod.mk.injEq] at hax
  exact ⟨hax.1.symm, hax.2.symm⟩

/-- A map that opens in two ways opens in one. -/
theorem Opens.unique {n n' : Option ℕ} {kvs kvs' : List Item} {rest rest' bs : List UInt8}
    (h : Opens n kvs rest bs) (h' : Opens n' kvs' rest' bs) (hlen : kvs.length = kvs'.length) :
    n = n' ∧ kvs = kvs' ∧ rest = rest' := by
  obtain ⟨hd, b, hhd, hb, rfl⟩ := h
  obtain ⟨hd', b', hhd', hb', heq⟩ := h'
  obtain ⟨rfl, hbody⟩ := hhd.unique hhd' heq
  obtain ⟨rfl, rfl⟩ := hb.unique hb' hlen hbody
  exact ⟨rfl, rfl, rfl⟩

/-- **A byte string that is one map is read as that map.** -/
theorem parseMap_of_encodes {kvs : List Item} {bs : List UInt8} (h : Encodes [.map kvs] bs) :
    parseMap bs = some kvs := by
  have hread := (parseSeq_complete h (bs.length + 1) (by omega) []).1
  rw [List.append_nil, List.length_singleton] at hread
  rw [parseMap, hread]

end Cbor
end NrfSamples
