/-
# What the printed hash says

`smp_list_rsp_proc` in `bootloader_samples/client_smp/smp_client_ble/src/main.c`
prints the bytes of a hash with `%x`: a byte below 16 takes one digit, any other
two, the first of them not 0.  In the sample log of the README the hash of the
primary image has 61 digits.

The digits identify the hash if no other grouping of them has as many groups.
`hashText_identifies_iff` says for which hashes that is so (`Unambiguous`): all
bytes take one digit; or the only byte that takes one digit and is not 0 is the
last, and a byte of two digits before one of one digit ends in 0.  The second
kind of hash is the shortest way to group its digits: any other takes more bytes
(`aligned`, `shifted`).
-/

import Mathlib.Data.List.Chain
import NrfSamples.Smp.ListRsp

namespace NrfSamples
namespace Smp

open Cbor Zcbor

/-- `%x` of a byte; `char` is unsigned. -/
def hexDigits (b : UInt8) : List Char := Nat.toDigits 16 b.toNat

/-- The digits that a line of the hash prints. -/
def Print.hexText : Print → List Char
  | ⟨"%x", [.hex b]⟩ => hexDigits b
  | _ => []

/-- The lines that `decodeHash` prints for the bytes of a hash. -/
def hashLines (hash : List UInt8) : List Print := hash.map fun b => ⟨"%x", [.hex b]⟩

/-- The digits printed after `0x`. -/
def hashText (hash : List UInt8) : List Char := (hashLines hash).flatMap Print.hexText

/-- **What `decodeHash` prints** of a hash it has read. -/
theorem decodeHash_log (z : ZcborDecoder) (slot : ℕ) (key : List UInt8) {s : Exec z.State}
    {c c' : Cursor} {hash : List UInt8} (hs : z.view s.zsd = some c)
    (hread : c.bstr = some (hash, c')) :
    (decodeHash z slot key s).2.eff.log =
      s.eff.log ++ ⟨"      %s: 0x", [.str key]⟩ :: (hashLines hash ++ [⟨"\n", []⟩]) := by
  obtain ⟨t, hrun, -, heff⟩ := orReturn_some "Decoding error, hash value (err: %d)\n"
    z.bstrDecode_follows hs hread
  rw [decodeHash, Proc.bind_some hrun, ← heff]
  have hlog : ∀ log : List Print,
      ((log ++ [⟨"      %s: 0x", [.str key]⟩]) ++ hashLines hash) ++ [⟨"\n", []⟩] =
        log ++ ⟨"      %s: 0x", [.str key]⟩ :: (hashLines hash ++ [⟨"\n", []⟩]) := by
    intro log
    simp only [List.append_assoc, List.cons_append, List.nil_append]
  by_cases hslot : slot = 0
  · simp only [hslot, if_true]
    exact hlog _
  · simp only [hslot, if_false]
    exact hlog _

/-! ### Digits as numbers -/

/-- The digits of a byte, as numbers. -/
def nibbles (b : UInt8) : List ℕ :=
  if b.toNat < 16 then [b.toNat] else [b.toNat / 16, b.toNat % 16]

/-- The digits of a hash, as numbers. -/
def hashNibbles (hash : List UInt8) : List ℕ := hash.flatMap nibbles

theorem hexDigits_eq (b : UInt8) : hexDigits b = (nibbles b).map Nat.digitChar := by
  have hb := b.toNat_lt
  unfold hexDigits nibbles
  split_ifs with h
  · exact Nat.toDigits_of_lt_base h
  · rw [Nat.toDigits_of_base_le (by norm_num) (not_lt.1 h), Nat.toDigits_of_lt_base (by omega)]
    rfl

theorem hashText_eq (hash : List UInt8) :
    hashText hash = (hashNibbles hash).map Nat.digitChar := by
  rw [hashText, hashLines, List.flatMap_map, hashNibbles, List.map_flatMap]
  exact List.flatMap_congr fun b _ => hexDigits_eq b

/-- Every digit is below 16. -/
theorem lt_of_mem_hashNibbles {hash : List UInt8} {n : ℕ} (h : n ∈ hashNibbles hash) : n < 16 := by
  obtain ⟨b, -, hn⟩ := List.mem_flatMap.1 h
  have hb := b.toNat_lt
  unfold nibbles at hn
  split_ifs at hn with hsmall
  · rw [List.mem_singleton] at hn
    omega
  · simp only [List.mem_cons, List.not_mem_nil, or_false] at hn
    omega

theorem map_digitChar_inj {as bs : List ℕ} (ha : ∀ n ∈ as, n < 16) (hb : ∀ n ∈ bs, n < 16)
    (h : as.map Nat.digitChar = bs.map Nat.digitChar) : as = bs := by
  have hchar : ∀ m, m < 16 → ∀ n, n < 16 → Nat.digitChar m = Nat.digitChar n → m = n := by decide
  induction as generalizing bs with
  | nil => exact (List.map_eq_nil_iff.1 h.symm).symm
  | cons a as ih =>
    cases bs with
    | nil => cases h
    | cons b bs =>
      obtain ⟨hhead, htail⟩ := List.cons.inj h
      obtain rfl := hchar a (ha a List.mem_cons_self) b (hb b List.mem_cons_self) hhead
      rw [ih (fun n hn => ha n (List.mem_cons_of_mem _ hn))
        (fun n hn => hb n (List.mem_cons_of_mem _ hn)) htail]

/-- The characters are equal if and only if the numbers are. -/
theorem hashText_eq_iff {h h' : List UInt8} :
    hashText h' = hashText h ↔ hashNibbles h' = hashNibbles h := by
  rw [hashText_eq, hashText_eq]
  exact ⟨map_digitChar_inj (fun _ hn => lt_of_mem_hashNibbles hn) fun _ hn =>
    lt_of_mem_hashNibbles hn, congrArg _⟩

section Nibbles

variable {b x y : UInt8} {t h h' : List UInt8}

theorem hashNibbles_append (h h' : List UInt8) :
    hashNibbles (h ++ h') = hashNibbles h ++ hashNibbles h' := List.flatMap_append

/-- A byte of one digit in front. -/
theorem hashNibbles_one (hx : x.toNat < 16) :
    hashNibbles (x :: t) = x.toNat :: hashNibbles t := by
  rw [hashNibbles, List.flatMap_cons, nibbles, if_pos hx]
  rfl

/-- A byte of two digits in front. -/
theorem hashNibbles_two (hx : ¬ x.toNat < 16) :
    hashNibbles (x :: t) = x.toNat / 16 :: x.toNat % 16 :: hashNibbles t := by
  rw [hashNibbles, List.flatMap_cons, nibbles, if_neg hx]
  rfl

theorem hashNibbles_ne_nil : hashNibbles (x :: t) ≠ [] := by
  by_cases hx : x.toNat < 16
  · rw [hashNibbles_one hx]; simp
  · rw [hashNibbles_two hx]; simp

theorem eq_nil_of_hashNibbles (h : hashNibbles t = []) : t = [] := by
  cases t with
  | nil => rfl
  | cons x t => exact absurd h hashNibbles_ne_nil

end Nibbles

/-! ### Hashes with no other grouping -/

/-- What two neighbouring bytes of an unambiguous hash satisfy: the digit of a byte
of one digit cannot join the next one, and the last digit of a byte of two digits
cannot join a next byte of one. -/
def Separated (x y : UInt8) : Prop :=
  (x.toNat < 16 → x.toNat = 0) ∧ (¬ x.toNat < 16 → y.toNat < 16 → x.toNat % 16 = 0)

instance (x y : UInt8) : Decidable (Separated x y) := inferInstanceAs (Decidable (_ ∧ _))

/-- All bytes take one digit, or neighbouring bytes are separated. -/
def Unambiguous (h : List UInt8) : Prop :=
  (∀ b ∈ h, b.toNat < 16) ∨ h.IsChain Separated

instance (h : List UInt8) : Decidable (Unambiguous h) := inferInstanceAs (Decidable (_ ∨ _))

/-- Bytes with the same digits as the separated bytes `h`: they are `h`, or more. -/
def Aligned (h : List UInt8) : Prop :=
  ∀ h', hashNibbles h' = hashNibbles h → h' = h ∨ h.length < h'.length

/-- Bytes that begin with the second digit of a byte in front of the separated bytes
`h`: there are more of them than there are in `h`. -/
def Shifted (h : List UInt8) : Prop :=
  ∀ n h', (∀ y ∈ h.head?, y.toNat < 16 → n = 0) → hashNibbles h' = n :: hashNibbles h →
    h.length + 1 ≤ h'.length

theorem separated_cons {x : UInt8} {t : List UInt8} (h : (x :: t).IsChain Separated) :
    (∀ y ∈ t.head?, Separated x y) ∧ t.IsChain Separated := by
  cases t with
  | nil => exact ⟨by simp, .nil⟩
  | cons y t =>
    obtain ⟨hxy, ht⟩ := List.isChain_cons_cons.1 h
    exact ⟨by simpa using hxy, ht⟩

/-- The first byte of another grouping that begins where a byte begins. -/
theorem Aligned.cons {x : UInt8} {t : List UInt8} (hhead : ∀ y ∈ t.head?, Separated x y)
    (haligned : Aligned t) (hshifted : Shifted t) : Aligned (x :: t) := by
  intro h' heq
  cases h' with
  | nil => exact absurd heq.symm hashNibbles_ne_nil
  | cons y u =>
    have hy := y.toNat_lt
    have hx := x.toNat_lt
    have hrest : y = x → hashNibbles u = hashNibbles t →
        y :: u = x :: t ∨ (x :: t).length < (y :: u).length := by
      rintro rfl hu
      rcases haligned u hu with rfl | hlt
      · exact .inl rfl
      · exact .inr (by simpa using hlt)
    by_cases hx1 : x.toNat < 16 <;> by_cases hy1 : y.toNat < 16
    · rw [hashNibbles_one hx1, hashNibbles_one hy1] at heq
      obtain ⟨hxy, hu⟩ := List.cons.inj heq
      exact hrest (UInt8.toNat_inj.1 hxy) hu
    · -- the digit of `x` would begin a byte of two, but it is 0 or the last one
      rw [hashNibbles_one hx1, hashNibbles_two hy1] at heq
      obtain ⟨hxy, hu⟩ := List.cons.inj heq
      cases t with
      | nil => cases hu
      | cons w t =>
        have := (hhead w (by simp)).1 hx1
        omega
    · -- a byte of one digit: the second digit of `x` is left
      rw [hashNibbles_two hx1, hashNibbles_one hy1] at heq
      obtain ⟨-, hu⟩ := List.cons.inj heq
      have hlen := hshifted (x.toNat % 16) u (fun w hw hw1 => (hhead w hw).2 hx1 hw1) hu
      exact .inr (Nat.succ_le_succ hlen)
    · rw [hashNibbles_two hx1, hashNibbles_two hy1] at heq
      obtain ⟨hhi, hu⟩ := List.cons.inj heq
      obtain ⟨hlo, hu⟩ := List.cons.inj hu
      exact hrest (UInt8.toNat_inj.1 (by omega)) hu

/-- The first byte of another grouping that begins inside a byte. -/
theorem Shifted.cons {x : UInt8} {t : List UInt8} (hhead : ∀ y ∈ t.head?, Separated x y)
    (haligned : Aligned (x :: t)) (hshifted : Shifted t) : Shifted (x :: t) := by
  intro n h' hzero heq
  cases h' with
  | nil => cases heq
  | cons y u =>
    have hy := y.toNat_lt
    by_cases hy1 : y.toNat < 16
    · -- back in step
      rw [hashNibbles_one hy1] at heq
      obtain ⟨-, hu⟩ := List.cons.inj heq
      rcases haligned u hu with rfl | hlt
      · exact le_rfl
      · exact Nat.succ_le_succ hlt.le
    · rw [hashNibbles_two hy1] at heq
      obtain ⟨hn, hu⟩ := List.cons.inj heq
      by_cases hx1 : x.toNat < 16
      · have := hzero x (by simp) hx1
        omega
      · rw [hashNibbles_two hx1] at hu
        obtain ⟨-, hu⟩ := List.cons.inj hu
        have hlen := hshifted (x.toNat % 16) u (fun w hw hw1 => (hhead w hw).2 hx1 hw1) hu
        exact Nat.succ_le_succ hlen

/-- **Separated bytes are the shortest grouping of their digits.**  Induction on the
bytes, for both positions that another grouping can be in. -/
theorem aligned_and_shifted {h : List UInt8} (hsep : h.IsChain Separated) :
    Aligned h ∧ Shifted h := by
  induction h with
  | nil =>
    refine ⟨fun h' heq => .inl (eq_nil_of_hashNibbles heq), fun n h' _ heq => ?_⟩
    cases h' with
    | nil => cases heq
    | cons y u => simp
  | cons x t ih =>
    obtain ⟨hhead, ht⟩ := separated_cons hsep
    obtain ⟨haligned, hshifted⟩ := ih ht
    have hcons := haligned.cons hhead hshifted
    exact ⟨hcons, hshifted.cons hhead hcons⟩

/-- Bytes of one digit take as many digits as bytes, any others more. -/
theorem length_le_hashNibbles (h : List UInt8) :
    h.length ≤ (hashNibbles h).length ∧
      ((hashNibbles h).length = h.length ↔ ∀ b ∈ h, b.toNat < 16) := by
  induction h with
  | nil => exact ⟨le_rfl, by simp [hashNibbles]⟩
  | cons x t ih =>
    by_cases hx : x.toNat < 16
    · rw [hashNibbles_one hx, List.length_cons, List.length_cons]
      refine ⟨by omega, ?_⟩
      rw [List.forall_mem_cons, ← ih.2]
      simp [hx]
    · rw [hashNibbles_two hx, List.length_cons, List.length_cons, List.length_cons]
      refine ⟨by omega, ?_⟩
      rw [List.forall_mem_cons]
      simp only [hx, false_and, iff_false]
      omega

/-- Bytes of one digit are their digits. -/
theorem hashNibbles_of_small {h : List UInt8} (hsmall : ∀ b ∈ h, b.toNat < 16) :
    hashNibbles h = h.map UInt8.toNat := by
  induction h with
  | nil => rfl
  | cons x t ih =>
    rw [hashNibbles_one (hsmall x List.mem_cons_self), List.map_cons,
      ih fun b hb => hsmall b (List.mem_cons_of_mem _ hb)]

/-- **An unambiguous hash has no other grouping with as many bytes.** -/
theorem Unambiguous.eq {h h' : List UInt8} (hun : Unambiguous h) (hlen : h'.length = h.length)
    (heq : hashNibbles h' = hashNibbles h) : h' = h := by
  rcases hun with hsmall | hsep
  · have hsmall' : ∀ b ∈ h', b.toNat < 16 := by
      rw [← (length_le_hashNibbles h').2, heq, hlen]
      exact (length_le_hashNibbles h).2.2 hsmall
    rw [hashNibbles_of_small hsmall, hashNibbles_of_small hsmall'] at heq
    exact List.map_injective_iff.2 (fun _ _ => UInt8.toNat_inj.1) heq
  · rcases (aligned_and_shifted hsep).1 h' heq with rfl | hlt
    · rfl
    · omega

/-! ### Hashes with another grouping -/

/-- The byte with these two digits. -/
theorem hashNibbles_ofNat {m n : ℕ} (hm : 0 < m) (hm' : m < 16) (hn : n < 16) (t : List UInt8) :
    hashNibbles (UInt8.ofNat (16 * m + n) :: t) = m :: n :: hashNibbles t ∧
      ¬ (UInt8.ofNat (16 * m + n)).toNat < 16 := by
  have htoNat : (UInt8.ofNat (16 * m + n)).toNat = 16 * m + n := by
    rw [UInt8.toNat_ofNat']
    omega
  have hbig : ¬ (UInt8.ofNat (16 * m + n)).toNat < 16 := by
    rw [htoNat]
    omega
  refine ⟨?_, hbig⟩
  rw [hashNibbles_two hbig, htoNat]
  congr 1
  · omega
  · congr 1
    omega

/-- The byte with this one digit. -/
theorem hashNibbles_digit {n : ℕ} (hn : n < 16) (t : List UInt8) :
    hashNibbles (UInt8.ofNat n :: t) = n :: hashNibbles t ∧ (UInt8.ofNat n).toNat < 16 := by
  have htoNat : (UInt8.ofNat n).toNat = n := by
    rw [UInt8.toNat_ofNat']
    omega
  rw [hashNibbles_one (by rw [htoNat]; exact hn), htoNat]
  exact ⟨rfl, hn⟩

/-- `h'` is another grouping of the digits of `h` into as many bytes. -/
structure Regroups (h h' : List UInt8) : Prop where
  length : h'.length = h.length
  digits : hashNibbles h' = hashNibbles h
  ne : h' ≠ h

/-- A part that can be grouped in another way, inside a hash. -/
theorem Regroups.within {m m' : List UInt8} (h : Regroups m m') (l r : List UInt8) :
    Regroups (l ++ (m ++ r)) (l ++ (m' ++ r)) where
  length := by simp only [List.length_append, h.length]
  digits := by simp only [hashNibbles_append, h.digits]
  ne := fun heq => h.ne (List.append_cancel_right (List.append_cancel_left heq))

section Regroup

variable {x y p : UInt8}

/-- The digit of `x` joins the first digit of `y`. -/
theorem regroups_join_two (hx : x.toNat < 16) (hx₀ : x.toNat ≠ 0) (hy : ¬ y.toNat < 16) :
    ∃ m, Regroups [x, y] m := by
  have hy' := y.toNat_lt
  obtain ⟨hfirst, hbig⟩ := hashNibbles_ofNat (m := x.toNat) (n := y.toNat / 16) (by omega) hx
    (by omega) [UInt8.ofNat (y.toNat % 16)]
  refine ⟨[UInt8.ofNat (16 * x.toNat + y.toNat / 16), UInt8.ofNat (y.toNat % 16)], rfl, ?_, ?_⟩
  · rw [hfirst, (hashNibbles_digit (by omega) []).1, hashNibbles_one hx, hashNibbles_two hy]
  · intro heq
    rw [(List.cons.inj heq).1] at hbig
    exact hbig hx

/-- The last digit of `x` joins the digit of `y`. -/
theorem regroups_join_one (hx : ¬ x.toNat < 16) (hx₀ : x.toNat % 16 ≠ 0) (hy : y.toNat < 16) :
    ∃ m, Regroups [x, y] m := by
  have hx' := x.toNat_lt
  obtain ⟨hfirst, hsmall⟩ := hashNibbles_digit (n := x.toNat / 16) (by omega)
    [UInt8.ofNat (16 * (x.toNat % 16) + y.toNat)]
  refine ⟨[UInt8.ofNat (x.toNat / 16), UInt8.ofNat (16 * (x.toNat % 16) + y.toNat)], rfl, ?_, ?_⟩
  · rw [hfirst, (hashNibbles_ofNat (by omega) (by omega) hy []).1, hashNibbles_two hx,
      hashNibbles_one hy]
  · intro heq
    rw [(List.cons.inj heq).1] at hsmall
    exact hx hsmall

/-- The digits of `x` and `y` join, and a byte `p` of two digits before or behind them
is split. -/
theorem regroups_join_split (hx : x.toNat < 16) (hx₀ : x.toNat ≠ 0) (hy : y.toNat < 16)
    (hp : ¬ p.toNat < 16) (l : List UInt8) :
    (∃ m, Regroups (x :: y :: (l ++ [p])) m) ∧ ∃ m, Regroups (p :: (l ++ [x, y])) m := by
  have hp' := p.toNat_lt
  have hjoin := fun t => hashNibbles_ofNat (m := x.toNat) (by omega) hx hy t
  have hhi := fun t => hashNibbles_digit (n := p.toNat / 16) (by omega) t
  have hlo := fun t => hashNibbles_digit (n := p.toNat % 16) (by omega) t
  constructor
  · refine ⟨UInt8.ofNat (16 * x.toNat + y.toNat) ::
      (l ++ [UInt8.ofNat (p.toNat / 16), UInt8.ofNat (p.toNat % 16)]), by simp, ?_, ?_⟩
    · rw [(hjoin _).1, hashNibbles_append, (hhi _).1, (hlo _).1, hashNibbles_one hx,
        hashNibbles_one hy, hashNibbles_append, hashNibbles_two hp]
    · intro heq
      have hbig := (hjoin []).2
      rw [(List.cons.inj heq).1] at hbig
      exact hbig hx
  · refine ⟨UInt8.ofNat (p.toNat / 16) :: UInt8.ofNat (p.toNat % 16) ::
      (l ++ [UInt8.ofNat (16 * x.toNat + y.toNat)]), by simp, ?_, ?_⟩
    · rw [(hhi _).1, (hlo _).1, hashNibbles_append, (hjoin _).1, hashNibbles_two hp,
        hashNibbles_append, hashNibbles_one hx, hashNibbles_one hy]
    · intro heq
      have hsmall := (hhi []).2
      rw [(List.cons.inj heq).1] at hsmall
      exact hp hsmall

end Regroup

/-- **An ambiguous hash has another grouping with as many bytes.** -/
theorem exists_regroups {h : List UInt8} (hnot : ¬ Unambiguous h) : ∃ h', Regroups h h' := by
  rw [Unambiguous, not_or, List.isChain_iff_forall_rel_of_append_cons_cons] at hnot
  obtain ⟨hbig, hsep⟩ := hnot
  push Not at hbig hsep
  obtain ⟨p, hp, hp16⟩ := hbig
  obtain ⟨x, y, l, r, rfl, hxy⟩ := hsep
  have hp16 : ¬ p.toNat < 16 := not_lt.2 hp16
  have hwithin : ∀ {m : List UInt8}, Regroups [x, y] m →
      ∃ h', Regroups (l ++ x :: y :: r) h' := fun hm => ⟨_, hm.within l r⟩
  by_cases hx : x.toNat < 16 <;> by_cases hy : y.toNat < 16
  · -- neither has a second digit to give: another byte is split
    have hx₀ : x.toNat ≠ 0 := by
      intro h₀
      exact hxy ⟨fun _ => h₀, fun h => absurd hx h⟩
    have hne : p ≠ x ∧ p ≠ y := ⟨fun h => hp16 (h ▸ hx), fun h => hp16 (h ▸ hy)⟩
    rcases List.mem_append.1 hp with hp | hp
    · obtain ⟨a, b, rfl⟩ := List.append_of_mem hp
      obtain ⟨m, hm⟩ := (regroups_join_split hx hx₀ hy hp16 b).2
      have := hm.within a r
      exact ⟨_, by simpa using this⟩
    · obtain ⟨a, b, rfl⟩ := List.append_of_mem (show p ∈ r by simpa [hne.1, hne.2] using hp)
      obtain ⟨m, hm⟩ := (regroups_join_split hx hx₀ hy hp16 a).1
      have := hm.within l b
      exact ⟨_, by simpa using this⟩
  · have hx₀ : x.toNat ≠ 0 := by
      intro h₀
      exact hxy ⟨fun _ => h₀, fun h => absurd hx h⟩
    obtain ⟨m, hm⟩ := regroups_join_two hx hx₀ hy
    exact hwithin hm
  · have hx₀ : x.toNat % 16 ≠ 0 := by
      intro h₀
      exact hxy ⟨fun h => absurd h hx, fun _ _ => h₀⟩
    obtain ⟨m, hm⟩ := regroups_join_one hx hx₀ hy
    exact hwithin hm
  · exact absurd ⟨fun h => absurd h hx, fun _ h => absurd h hy⟩ hxy

/-- **When the printed digits identify a hash.** -/
theorem hashText_identifies_iff (h : List UInt8) :
    (∀ h' : List UInt8, h'.length = h.length → hashText h' = hashText h → h' = h) ↔
      Unambiguous h := by
  constructor
  · intro hid
    by_contra hnot
    obtain ⟨h', hh'⟩ := exists_regroups hnot
    exact hh'.ne (hid h' hh'.length (hashText_eq_iff.2 hh'.digits))
  · exact fun hun h' hlen htext => hun.eq hlen (hashText_eq_iff.1 htext)

/-- Two hashes of 32 bytes with the same text. -/
theorem hashText_collision :
    ∃ h h' : List UInt8, h = 1 :: 18 :: List.replicate 30 85 ∧
      h' = 17 :: 2 :: List.replicate 30 85 ∧ h.length = 32 ∧ h'.length = 32 ∧
      hashText h = hashText h' ∧ h ≠ h' := by
  refine ⟨_, _, rfl, rfl, rfl, rfl, hashText_eq_iff.2 rfl, ?_⟩
  intro heq
  cases (List.cons.inj heq).1

end Smp
end NrfSamples
