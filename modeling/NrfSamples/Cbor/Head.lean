/-
# Heads of CBOR data items

A CBOR data item begins with a head: an initial byte `32 m + a` with the major
type `m < 8` and the additional information `a`, and the bytes of an argument.
For `a < 24` the argument is `a` itself; for `a = 24, 25, 26, 27` it follows in
1, 2, 4 or 8 bytes, most significant first.  A small argument may be written in
a wide head.

`head` writes a head, `readHead` reads one.  The reader accepts exactly what the
writer writes: `readHead_head` and `readHead_sound`.  So the head a byte string
begins with, and what follows it, are determined (`head_append_inj`).
-/

import Mathlib.Data.List.Induction
import Mathlib.Tactic.Linarith
import Mathlib.Tactic.Ring

namespace NrfSamples
namespace Cbor

/-- `k` bytes of `n`, most significant first. -/
def bigEndian : ℕ → ℕ → List UInt8
  | 0, _ => []
  | k + 1, n => bigEndian k (n / 256) ++ [UInt8.ofNat n]

/-- The number a byte string writes, most significant byte first. -/
def ofBigEndian (bs : List UInt8) : ℕ := bs.foldl (fun n b => 256 * n + b.toNat) 0

@[simp] theorem length_bigEndian (k n : ℕ) : (bigEndian k n).length = k := by
  induction k generalizing n with
  | zero => rfl
  | succ k ih => simp [bigEndian, ih]

theorem ofBigEndian_snoc (bs : List UInt8) (b : UInt8) :
    ofBigEndian (bs ++ [b]) = 256 * ofBigEndian bs + b.toNat := by
  simp only [ofBigEndian, List.foldl_append, List.foldl_cons, List.foldl_nil]

theorem ofBigEndian_bigEndian {k n : ℕ} (h : n < 256 ^ k) : ofBigEndian (bigEndian k n) = n := by
  induction k generalizing n with
  | zero => simp at h; subst h; rfl
  | succ k ih =>
    have hdiv : n / 256 < 256 ^ k := by
      rw [Nat.div_lt_iff_lt_mul (by norm_num)]
      rwa [pow_succ] at h
    rw [bigEndian, ofBigEndian_snoc, ih hdiv, UInt8.toNat_ofNat']
    omega

theorem bigEndian_ofBigEndian (bs : List UInt8) : bigEndian bs.length (ofBigEndian bs) = bs := by
  induction bs using List.reverseRecOn with
  | nil => rfl
  | append_singleton bs b ih =>
    have hb : b.toNat < 256 := b.toNat_lt
    have hdiv : (256 * ofBigEndian bs + b.toNat) / 256 = ofBigEndian bs := by omega
    have hmod : UInt8.ofNat (256 * ofBigEndian bs + b.toNat) = b := by
      apply UInt8.toNat_inj.1
      rw [UInt8.toNat_ofNat']
      omega
    rw [List.length_append, List.length_singleton, bigEndian, ofBigEndian_snoc, hdiv, ih, hmod]

theorem ofBigEndian_lt (bs : List UInt8) : ofBigEndian bs < 256 ^ bs.length := by
  induction bs using List.reverseRecOn with
  | nil => simp [ofBigEndian]
  | append_singleton bs b ih =>
    have hb : b.toNat < 256 := b.toNat_lt
    rw [ofBigEndian_snoc, List.length_append, List.length_singleton, pow_succ]
    omega

/-- How the argument of a head is written: in the initial byte, or in the bytes
after it. -/
inductive Width
  | inHead
  | one
  | two
  | four
  | eight
  deriving DecidableEq, Repr

/-- The number of bytes after the initial byte. -/
def Width.bytes : Width → ℕ
  | .inHead => 0
  | .one => 1
  | .two => 2
  | .four => 4
  | .eight => 8

/-- The additional information of a head with argument `n`. -/
def Width.additional : Width → ℕ → ℕ
  | .inHead, n => n
  | .one, _ => 24
  | .two, _ => 25
  | .four, _ => 26
  | .eight, _ => 27

/-- The argument can be written in this width. -/
def Width.Fits : Width → ℕ → Prop
  | .inHead, n => n < 24
  | w, n => n < 256 ^ w.bytes

instance (w : Width) (n : ℕ) : Decidable (w.Fits n) := by
  cases w <;> unfold Width.Fits <;> infer_instance

/-- The narrowest width, in which encoders write. -/
def Width.shortest (n : ℕ) : Width :=
  if n < 24 then .inHead
  else if n < 256 then .one
  else if n < 65536 then .two
  else if n < 4294967296 then .four
  else .eight

theorem Width.shortest_fits {n : ℕ} (h : n < 2 ^ 64) : (Width.shortest n).Fits n := by
  unfold Width.shortest
  split_ifs <;> simp only [Width.Fits, Width.bytes] <;> norm_num <;> omega

theorem Width.additional_lt {w : Width} {n : ℕ} (h : w.Fits n) : w.additional n < 28 := by
  cases w <;> simp only [Width.Fits, Width.additional] at * <;> omega

theorem Width.bytes_le (w : Width) : w.bytes ≤ 8 := by
  cases w <;> decide

/-- The initial byte of major type `m` with additional information `a`. -/
def initialByte (m a : ℕ) : UInt8 := UInt8.ofNat (32 * m + a)

theorem initialByte_toNat {m a : ℕ} (hm : m < 8) (ha : a < 32) :
    (initialByte m a).toNat = 32 * m + a := by
  rw [initialByte, UInt8.toNat_ofNat']
  omega

/-- The head of major type `m` with argument `n` in width `w`. -/
def head (m : ℕ) (w : Width) (n : ℕ) : List UInt8 :=
  initialByte m (w.additional n) :: bigEndian w.bytes n

theorem length_head (m : ℕ) (w : Width) (n : ℕ) : (head m w n).length = 1 + w.bytes := by
  rw [head, List.length_cons, length_bigEndian, Nat.add_comm]

/-- The width that additional information `a ≥ 24` announces; `28 ≤ a` announces
none. -/
def wideOf : ℕ → Option Width
  | 24 => some .one
  | 25 => some .two
  | 26 => some .four
  | 27 => some .eight
  | _ => none

/-- Reads a head: the major type, the argument and the bytes after the head. -/
def readHead : List UInt8 → Option (ℕ × ℕ × List UInt8)
  | [] => none
  | b :: bs =>
      if b.toNat % 32 < 24 then
        some (b.toNat / 32, b.toNat % 32, bs)
      else
        match wideOf (b.toNat % 32) with
        | none => none
        | some w =>
            if w.bytes ≤ bs.length then
              some (b.toNat / 32, ofBigEndian (bs.take w.bytes), bs.drop w.bytes)
            else
              none

theorem wideOf_additional {w : Width} (hw : w ≠ .inHead) (n : ℕ) :
    wideOf (w.additional n) = some w ∧ 24 ≤ w.additional n := by
  cases w with
  | inHead => exact absurd rfl hw
  | one => exact ⟨rfl, le_rfl⟩
  | two => exact ⟨rfl, by simp [Width.additional]⟩
  | four => exact ⟨rfl, by simp [Width.additional]⟩
  | eight => exact ⟨rfl, by simp [Width.additional]⟩

theorem additional_of_wideOf {a : ℕ} {w : Width} (h : wideOf a = some w) (n : ℕ) :
    w.additional n = a ∧ w ≠ .inHead := by
  unfold wideOf at h
  split at h <;> cases h <;> exact ⟨rfl, by decide⟩

/-- **The reader reads what the writer writes.** -/
theorem readHead_head {m : ℕ} {w : Width} {n : ℕ} (hm : m < 8) (hw : w.Fits n) (r : List UInt8) :
    readHead (head m w n ++ r) = some (m, n, r) := by
  have hbyte := initialByte_toNat hm (show w.additional n < 32 by
    have := Width.additional_lt hw; omega)
  have hadd := Width.additional_lt hw
  have hmod : (initialByte m (w.additional n)).toNat % 32 = w.additional n := by omega
  have hdiv : (initialByte m (w.additional n)).toNat / 32 = m := by omega
  rw [head, List.cons_append, readHead, hmod, hdiv]
  by_cases hin : w = .inHead
  · subst hin
    rw [if_pos (show Width.inHead.additional n < 24 from hw)]
    rfl
  · obtain ⟨hwide, hge⟩ := wideOf_additional hin n
    have hfit : n < 256 ^ w.bytes := by
      cases w with
      | inHead => exact absurd rfl hin
      | _ => exact hw
    have hlen : (bigEndian w.bytes n).length = w.bytes := length_bigEndian _ _
    rw [if_neg (by omega), hwide]
    simp only [List.length_append, hlen, Nat.le_add_right, if_true]
    rw [List.take_left' hlen, List.drop_left' hlen, ofBigEndian_bigEndian hfit]

/-- **The reader reads nothing else.** -/
theorem readHead_sound {bs : List UInt8} {m n : ℕ} {r : List UInt8}
    (h : readHead bs = some (m, n, r)) :
    ∃ w : Width, w.Fits n ∧ m < 8 ∧ bs = head m w n ++ r := by
  cases bs with
  | nil => simp [readHead] at h
  | cons b bs =>
    have hb : b.toNat < 256 := b.toNat_lt
    have hbyte : ∀ a, a = b.toNat % 32 → initialByte (b.toNat / 32) a = b := by
      rintro a rfl
      apply UInt8.toNat_inj.1
      rw [initialByte_toNat (by omega) (by omega)]
      omega
    rw [readHead] at h
    split_ifs at h with hsmall
    · simp only [Option.some.injEq, Prod.mk.injEq] at h
      obtain ⟨rfl, rfl, rfl⟩ := h
      exact ⟨.inHead, hsmall, by omega, by rw [head, Width.additional, hbyte _ rfl]; rfl⟩
    · split at h
      · cases h
      · rename_i w hwide
        split_ifs at h with hlen
        simp only [Option.some.injEq, Prod.mk.injEq] at h
        obtain ⟨rfl, rfl, rfl⟩ := h
        have htake : (bs.take w.bytes).length = w.bytes := List.length_take_of_le hlen
        obtain ⟨hadd, hne⟩ := additional_of_wideOf hwide (ofBigEndian (bs.take w.bytes))
        have hfit : w.Fits (ofBigEndian (bs.take w.bytes)) := by
          have := ofBigEndian_lt (bs.take w.bytes)
          rw [htake] at this
          cases w with
          | inHead => exact absurd rfl hne
          | _ => exact this
        have hback : bigEndian w.bytes (ofBigEndian (bs.take w.bytes)) = bs.take w.bytes := by
          have := bigEndian_ofBigEndian (bs.take w.bytes)
          rwa [htake] at this
        refine ⟨w, hfit, by omega, ?_⟩
        rw [head, hbyte _ hadd, hback, List.cons_append, List.take_append_drop]

/-- **A head and what follows it are determined by the bytes.** -/
theorem head_append_inj {m m' n n' : ℕ} {w w' : Width} {r r' : List UInt8}
    (hm : m < 8) (hm' : m' < 8) (hw : w.Fits n) (hw' : w'.Fits n')
    (h : head m w n ++ r = head m' w' n' ++ r') : m = m' ∧ n = n' ∧ r = r' := by
  have h₁ := readHead_head hm hw r
  rw [h, readHead_head hm' hw' r'] at h₁
  simp only [Option.some.injEq, Prod.mk.injEq] at h₁
  exact ⟨h₁.1.symm, h₁.2.1.symm, h₁.2.2.symm⟩

/-- The initial byte of an indefinite-length item, or the break byte for `m = 7`. -/
def indefByte (m : ℕ) : UInt8 := initialByte m 31

theorem indefByte_toNat {m : ℕ} (hm : m < 8) : (indefByte m).toNat = 32 * m + 31 :=
  initialByte_toNat hm (by norm_num)

/-- No head begins with the initial byte of an indefinite-length item. -/
theorem readHead_indefByte {m : ℕ} (hm : m < 8) (r : List UInt8) :
    readHead (indefByte m :: r) = none := by
  have hmod : (indefByte m).toNat % 32 = 31 := by rw [indefByte_toNat hm]; omega
  rw [readHead, hmod, if_neg (by norm_num)]
  rfl

example : readHead [0x19, 0x01, 0x2c, 0x61] = some (0, 300, [0x61]) := by decide

end Cbor
end NrfSamples
