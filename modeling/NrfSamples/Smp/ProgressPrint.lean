/-
# The progress bar

`progress_print` in `bootloader_samples/client_smp/smp_client_ble/src/main.c`,
which `send_upload2` calls in every round with the bytes sent so far and the size
of the slot.

All arithmetic is that of 32-bit words: `downloaded * 100` wraps for images from
about 41 MiB on.  A wrapped product is smaller than the true one, so the
percentage is too small and never more than 100 (`percent_bounds`), and what is
printed is always a bar of `PROGRESS_WIDTH` characters between the percentage and the
numbers (`progressPrint_spec`).
-/

import NrfSamples.Smp.Handler

namespace NrfSamples
namespace Smp

/-- `PROGRESS_WIDTH`. -/
def progressWidth : ℕ := 50

/-- `percent`, an `int`. -/
def percent (downloaded fileSize : UInt32) : Int32 := (downloaded * 100 / fileSize).toInt32

/-- `lpad`. -/
def lpad (downloaded fileSize : UInt32) : UInt32 :=
  (percent downloaded fileSize * Int32.ofNat progressWidth / 100).toUInt32

/-- `rpad`. -/
def rpad (downloaded fileSize : UInt32) : UInt32 :=
  UInt32.ofNat progressWidth - lpad downloaded fileSize

/-- `for (; i < count; i++) printk(line);`. -/
def printLoop (line : Print) (count i : UInt32) : List Print :=
  if i < count then line :: printLoop line count (i + 1) else []
termination_by count.toNat - i.toNat
decreasing_by
  rename_i h
  have hlt : i.toNat < count.toNat := UInt32.lt_iff_toNat_lt.1 h
  have hcount := count.toNat_lt
  rw [UInt32.toNat_add, UInt32.toNat_one]
  omega

/-- The two padding loops. -/
def bar (downloaded fileSize : UInt32) : List Print :=
  printLoop ⟨"=", []⟩ (lpad downloaded fileSize) 0 ++ printLoop ⟨" ", []⟩ (rpad downloaded fileSize) 0

/-- The lines `progress_print` prints. -/
def progressPrint (downloaded fileSize : UInt32) : List Print :=
  ⟨"\r[ %3d%% ] |", [.int (percent downloaded fileSize).toInt]⟩ ::
    (bar downloaded fileSize ++
      [⟨"| (%d/%d bytes)", [.int downloaded.toInt32.toInt, .int fileSize.toInt32.toInt]⟩])

/-- A loop from `i` on prints a line for each number up to `count`. -/
theorem printLoop_eq (line : Print) (count i : UInt32) :
    printLoop line count i = List.replicate (count.toNat - i.toNat) line := by
  fun_induction printLoop line count i with
  | case1 i h ih =>
    have hlt : i.toNat < count.toNat := UInt32.lt_iff_toNat_lt.1 h
    have hcount := count.toNat_lt
    have hnext : (i + 1).toNat = i.toNat + 1 := by
      rw [UInt32.toNat_add, UInt32.toNat_one]
      omega
    rw [ih, hnext, show count.toNat - i.toNat = count.toNat - (i.toNat + 1) + 1 by omega,
      List.replicate_succ]
  | case2 i h =>
    have hle : count.toNat ≤ i.toNat := UInt32.le_iff_toNat_le.1 (UInt32.not_lt.1 h)
    rw [Nat.sub_eq_zero_of_le hle, List.replicate_zero]

/-- The quotient, whether or not the product wraps. -/
theorem quotient_le {downloaded fileSize : UInt32} (hle : downloaded ≤ fileSize)
    (hpos : 0 < fileSize) : (downloaded * 100 / fileSize).toNat ≤ 100 := by
  have hle' : downloaded.toNat ≤ fileSize.toNat := UInt32.le_iff_toNat_le.1 hle
  have hpos' : 0 < fileSize.toNat := UInt32.lt_iff_toNat_lt.1 hpos
  calc (downloaded * 100 / fileSize).toNat
      = downloaded.toNat * 100 % 2 ^ 32 / fileSize.toNat := by
        rw [UInt32.toNat_div, UInt32.toNat_mul]; rfl
    _ ≤ downloaded.toNat * 100 / fileSize.toNat := Nat.div_le_div_right (Nat.mod_le _ _)
    _ ≤ fileSize.toNat * 100 / fileSize.toNat := Nat.div_le_div_right (Nat.mul_le_mul_right _ hle')
    _ = 100 := Nat.mul_div_cancel_left _ hpos'

/-- The percentage as one of the numbers from 0 to 100. -/
theorem exists_percent {downloaded fileSize : UInt32} (hle : downloaded ≤ fileSize)
    (hpos : 0 < fileSize) :
    ∃ q, q ≤ 100 ∧ percent downloaded fileSize = Int32.ofNat q := by
  refine ⟨_, quotient_le hle hpos, ?_⟩
  rw [← UInt32.toInt32_ofNat', UInt32.ofNat_toNat, percent]

/-- **The percentage is one.** -/
theorem percent_bounds {downloaded fileSize : UInt32} (hle : downloaded ≤ fileSize)
    (hpos : 0 < fileSize) :
    0 ≤ (percent downloaded fileSize).toInt ∧ (percent downloaded fileSize).toInt ≤ 100 := by
  obtain ⟨q, hq, hpercent⟩ := exists_percent hle hpos
  rw [hpercent, Int32.toInt_ofNat_of_lt (by omega)]
  omega

/-- The left padding of a percentage; its product with `PROGRESS_WIDTH` is far from
overflowing. -/
theorem lpad_of_percent : ∀ q, q ≤ 100 →
    (Int32.ofNat q * Int32.ofNat progressWidth / 100).toUInt32.toNat = q * progressWidth / 100 := by
  have htable : ∀ q, q < 101 →
      (Int32.ofNat q * Int32.ofNat progressWidth / 100).toUInt32.toNat =
        q * progressWidth / 100 := by decide
  exact fun q hq => htable q (by omega)

theorem lpad_le {downloaded fileSize : UInt32} (hle : downloaded ≤ fileSize)
    (hpos : 0 < fileSize) : (lpad downloaded fileSize).toNat ≤ progressWidth := by
  obtain ⟨q, hq, hpercent⟩ := exists_percent hle hpos
  rw [lpad, hpercent, lpad_of_percent q hq]
  unfold progressWidth
  omega

/-- The right padding is what is left of the bar: the subtraction does not wrap. -/
theorem lpad_add_rpad {downloaded fileSize : UInt32} (hle : downloaded ≤ fileSize)
    (hpos : 0 < fileSize) :
    (lpad downloaded fileSize).toNat + (rpad downloaded fileSize).toNat = progressWidth := by
  have hlpad := lpad_le hle hpos
  have hwidth : (UInt32.ofNat progressWidth).toNat = progressWidth := rfl
  rw [rpad, UInt32.toNat_sub_of_le _ _ (UInt32.le_iff_toNat_le.2 hlpad), hwidth]
  omega

/-- The characters that lines without arguments print. -/
def printedChars (lines : List Print) : List Char := lines.flatMap fun p => p.fmt.toList

/-- The bar: `=` as far as the percentage goes, blanks behind it. -/
theorem printedChars_bar (downloaded fileSize : UInt32) :
    printedChars (bar downloaded fileSize) =
      List.replicate (lpad downloaded fileSize).toNat '=' ++
        List.replicate (rpad downloaded fileSize).toNat ' ' := by
  have hloop : ∀ (s : String) (c : Char) (n : ℕ), s.toList = [c] →
      printedChars (List.replicate n ⟨s, []⟩) = List.replicate n c := by
    intro s c n hs
    induction n with
    | zero => rfl
    | succ n ih =>
      rw [List.replicate_succ, List.replicate_succ, ← ih, printedChars, List.flatMap_cons, hs]
      rfl
  rw [bar, printedChars, List.flatMap_append, printLoop_eq, printLoop_eq, UInt32.toNat_zero,
    Nat.sub_zero, Nat.sub_zero]
  exact congrArg₂ _ (hloop "=" '=' _ rfl) (hloop " " ' ' _ rfl)

/-- What lies between the percentage and the numbers of the lines printed is the bar. -/
structure PrintsBar (downloaded fileSize : UInt32) (lines padding : List Print) : Prop where
  lines : lines = ⟨"\r[ %3d%% ] |", [.int (percent downloaded fileSize).toInt]⟩ :: (padding ++
    [⟨"| (%d/%d bytes)", [.int downloaded.toInt32.toInt, .int fileSize.toInt32.toInt]⟩])
  chars : printedChars padding = List.replicate (lpad downloaded fileSize).toNat '=' ++
    List.replicate (rpad downloaded fileSize).toNat ' '
  width : (printedChars padding).length = 50

theorem printsBar {downloaded fileSize : UInt32} (hle : downloaded ≤ fileSize)
    (hpos : 0 < fileSize) :
    PrintsBar downloaded fileSize (progressPrint downloaded fileSize) (bar downloaded fileSize) where
  lines := rfl
  chars := printedChars_bar downloaded fileSize
  width := by
    rw [printedChars_bar, List.length_append, List.length_replicate, List.length_replicate,
      lpad_add_rpad hle hpos]
    rfl

/-- **What `progress_print` prints**, for every number of bytes sent and every
size, wherever the product wraps: the percentage, 50 characters, and the numbers. -/
theorem progressPrint_spec (downloaded fileSize : UInt32) (hle : downloaded ≤ fileSize)
    (hpos : 0 < fileSize) :
    (0 ≤ (percent downloaded fileSize).toInt ∧ (percent downloaded fileSize).toInt ≤ 100) ∧
      (lpad downloaded fileSize).toNat ≤ progressWidth ∧
      (rpad downloaded fileSize).toNat = progressWidth - (lpad downloaded fileSize).toNat ∧
      ∃ padding, PrintsBar downloaded fileSize (progressPrint downloaded fileSize) padding := by
  have hsum := lpad_add_rpad hle hpos
  exact ⟨percent_bounds hle hpos, lpad_le hle hpos, by omega, _, printsBar hle hpos⟩

/-- The last call for an image of 64 MiB: the product wraps, and the bar is short. -/
theorem progressPrint_spec_wrapped :
    (0 ≤ (percent 67108864 67108864).toInt ∧ (percent 67108864 67108864).toInt ≤ 100) ∧
      (lpad 67108864 67108864).toNat ≤ progressWidth ∧
      (rpad 67108864 67108864).toNat = progressWidth - (lpad 67108864 67108864).toNat ∧
      ∃ padding, PrintsBar 67108864 67108864 (progressPrint 67108864 67108864) padding :=
  progressPrint_spec 67108864 67108864 (by decide) (by decide)

end Smp
end NrfSamples
