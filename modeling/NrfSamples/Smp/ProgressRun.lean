/-
# The progress bar along an upload

`send_upload2` in `bootloader_samples/client_smp/smp_client_ble/src/main.c` calls
`progress_print` in every iteration, before the chunk is read.

`progress_run`: the percentages of an upload go up exactly if the product
`downloaded * 100` of its last call does not wrap; if it does, the bar falls back to
nothing on the way.  And 100 percent is shown only for a slot of whole chunks, for
which the last iteration sends an empty chunk.
-/

import NrfSamples.Smp.ProgressPrint
import NrfSamples.Smp.UploadRun

namespace NrfSamples
namespace Smp

open Zcbor

/-- The percentage in the first line of what `progress_print` prints. -/
def shownPercent : List Print → Option ℤ
  | ⟨_, [.int percent]⟩ :: _ => some percent
  | _ => none

/-- The percentages that the rounds show. -/
def shownPercents (cs : List Calls) : List ℤ := cs.filterMap fun c => shownPercent c.printed

/-- The product that the `i`-th of them is computed from. -/
def wrapped (i : ℕ) : ℕ := chunkSize * i * 100 % 2 ^ 32

theorem toNat_ofInt {v : ℤ} {n : ℕ} (hv : v = n) (hn : n < 2 ^ 32) : (UInt32.ofInt v).toNat = n := by
  rw [UInt32.ofInt, UInt32.toNat_ofNat']
  omega

theorem Slot.toNat_fileSize (S : Slot) : S.fileSize.toNat = S.size := by
  have := S.size_lt
  exact toNat_ofInt S.size_eq.symm (by omega)

/-- **What an iteration shows.** -/
theorem percent_chunk {S : Slot} {w : Locals} {i : ℕ} (hw : w.currAddr = S.startAddr + chunkSize * i)
    (hi : chunkSize * i ≤ S.size) :
    (percent (w.downloaded S) S.fileSize).toInt = (wrapped i / S.size : ℕ) := by
  have hsize := S.size_lt
  have hlast := S.size_eq
  have hstart := S.lt
  have hdown : (w.downloaded S).toNat = chunkSize * i :=
    toNat_ofInt (by rw [hw]; push_cast; ring) (by omega)
  obtain ⟨hle, hpos⟩ : w.downloaded S ≤ S.fileSize ∧ 0 < S.fileSize :=
    progress_args (by rw [hw]; omega) (by rw [hw]; omega)
  have hquot := quotient_le hle hpos
  have hnat : (w.downloaded S * 100 / S.fileSize).toNat = wrapped i / S.size := by
    rw [UInt32.toNat_div, UInt32.toNat_mul, hdown, S.toNat_fileSize]
    rfl
  rw [hnat] at hquot
  have hpercent : percent (w.downloaded S) S.fileSize = Int32.ofNat (wrapped i / S.size) := by
    rw [← hnat, ← UInt32.toInt32_ofNat', UInt32.ofNat_toNat, percent]
  rw [hpercent, Int32.toInt_ofNat_of_lt (by omega)]

/-- What the calls of a round show is what `progress_print` computes. -/
theorem Calls.OfLocals.shownPercent {S : Slot} {c : Calls} (h : c.OfLocals S) :
    shownPercent c.printed = some (percent (c.locals.downloaded S) S.fileSize).toInt := by
  rw [h.printed, h.progress]
  rfl

/-- The percentages of a whole run. -/
theorem PassesFrom.shownPercents_eq {S : Slot} {v : Locals} {cs : List Calls}
    (h : PassesFrom S 0 v (S.size / chunkSize + 1) cs) :
    shownPercents cs =
      (List.range (S.size / chunkSize + 1)).map fun i => ((wrapped i / S.size : ℕ) : ℤ) := by
  have haddrs := h.addr
  rw [← List.range_eq_range'] at haddrs
  have hlen : cs.length = S.size / chunkSize + 1 := by
    simpa using congrArg List.length haddrs
  have hshown : shownPercents cs =
      cs.map fun c => (percent (c.locals.downloaded S) S.fileSize).toInt := by
    rw [shownPercents, ← List.filterMap_eq_map]
    exact List.filterMap_congr fun c hc => (h.calls c hc).shownPercent
  rw [hshown]
  refine List.ext_getElem (by simp [hlen]) fun i h₁ h₂ => ?_
  have hi : i < cs.length := by simpa using h₁
  have haddr : cs[i].locals.currAddr = S.startAddr + chunkSize * i := by
    have hget := List.getElem_of_eq haddrs (i := i) (by simpa using hi)
    simpa using hget
  have hle : chunkSize * i ≤ S.size := by
    rw [Nat.mul_comm, ← Nat.le_div_iff_mul_le (by decide)]
    omega
  simp only [List.getElem_map, List.getElem_range]
  exact percent_chunk haddr hle

/-! ### Wrapping -/

/-- Where nothing has wrapped the product is the true one. -/
theorem wrapped_eq {i : ℕ} (h : chunkSize * i * 100 < 2 ^ 32) : wrapped i = chunkSize * i * 100 :=
  Nat.mod_eq_of_lt h

/-- **The first product that wraps** is smaller than any slot that has one, and the one
before is larger. -/
theorem wrapped_first : wrapped 286332 = 12704 ∧ wrapped 286331 = 4294965000 := by decide

/-- **The percentages go up exactly if no product wraps.** -/
theorem percents_monotone_iff (S : Slot) :
    (∀ i j, i ≤ j → j ≤ S.size / chunkSize → wrapped i / S.size ≤ wrapped j / S.size) ↔
      chunkSize * (S.size / chunkSize) * 100 < 2 ^ 32 := by
  have hsize := S.size_lt
  have hmul : chunkSize * (S.size / chunkSize) ≤ S.size := Nat.mul_div_le _ _
  have hchunk : chunkSize = 150 := rfl
  constructor
  · intro h
    by_contra hwrap
    have hk : 286332 ≤ S.size / chunkSize := by
      rw [hchunk] at hwrap ⊢
      omega
    have hbig : 42949800 ≤ S.size := by
      rw [hchunk] at hmul hk
      omega
    have hdown := h 286331 286332 (by norm_num) hk
    have hzero : 12704 / S.size = 0 := Nat.div_eq_of_lt (by omega)
    have hup : 0 < 4294965000 / S.size := Nat.div_pos (by omega) (by omega)
    rw [wrapped_first.1, wrapped_first.2, hzero] at hdown
    exact absurd hdown (not_le.2 hup)
  · intro h i j hij hj
    have hle : ∀ k, k ≤ S.size / chunkSize → chunkSize * k * 100 < 2 ^ 32 := fun k hk =>
      (Nat.mul_le_mul_right 100 (Nat.mul_le_mul_left chunkSize hk)).trans_lt h
    rw [wrapped_eq (hle i (hij.trans hj)), wrapped_eq (hle j hj)]
    exact Nat.div_le_div_right (Nat.mul_le_mul_right 100 (Nat.mul_le_mul_left chunkSize hij))

/-- **Where 100 percent is shown.** -/
theorem hundred_iff (S : Slot) :
    (∃ i, i ≤ S.size / chunkSize ∧ wrapped i / S.size = 100) ↔
      chunkSize ∣ S.size ∧ S.size * 100 < 2 ^ 32 := by
  have hpos : 0 < S.size := by
    have := S.size_eq
    have := S.lt
    omega
  constructor
  · rintro ⟨i, hi, heq⟩
    have hle : chunkSize * i ≤ S.size := by
      rw [Nat.mul_comm, ← Nat.le_div_iff_mul_le (by decide)]
      exact hi
    have hprod : 100 * S.size ≤ wrapped i := by
      rw [← heq]
      exact Nat.div_mul_le_self _ _
    have hmod : wrapped i ≤ chunkSize * i * 100 := Nat.mod_le _ _
    have hlt : wrapped i < 2 ^ 32 := Nat.mod_lt _ (by norm_num)
    have hall : chunkSize * i = S.size := by omega
    exact ⟨⟨i, hall.symm⟩, by omega⟩
  · rintro ⟨⟨i, hall⟩, hlt⟩
    have hi : S.size / chunkSize = i := by
      rw [hall]
      exact Nat.mul_div_cancel_left i (by decide)
    refine ⟨i, hi.ge, ?_⟩
    rw [wrapped_eq (by rw [← hall]; exact hlt), ← hall, Nat.mul_comm]
    exact Nat.mul_div_cancel _ hpos

/-- **The progress bar along an upload**, for every slot and every content of the flash
at every read: every round shows a percentage, they go up exactly if the last product
does not wrap, and reach 100 exactly for a slot of whole chunks whose size times 100 does
not. -/
theorem progress_run (z : ZcborEncoder) (S : Slot) (flash : ℕ → ℤ → UInt8)
    (data : Vector UInt8 (chunkSize + 1)) :
    ∃ cs, (∀ fuel, passes z S flash fuel 0 (Locals.start S data) =
        if S.size / chunkSize + 1 ≤ fuel then some cs else none) ∧
      (shownPercents cs).length = cs.length ∧
      ((shownPercents cs).Pairwise (· ≤ ·) ↔
        chunkSize * (S.size / chunkSize) * 100 < 2 ^ 32) ∧
      (100 ∈ shownPercents cs ↔ chunkSize ∣ S.size ∧ S.size * 100 < 2 ^ 32) := by
  obtain ⟨cs, hcs, hfrom⟩ :=
    passes_from z flash (S.size / chunkSize) (AtChunk.start S data) (by omega)
  have hshown := hfrom.shownPercents_eq
  refine ⟨cs, hcs, ?_, ?_, ?_⟩
  · rw [hshown, (hfrom.coverSlot rfl).rounds, List.length_map, List.length_range]
  · rw [hshown, ← percents_monotone_iff, List.pairwise_map, List.pairwise_iff_getElem]
    constructor
    · intro h i j hij hj
      rcases hij.eq_or_lt with rfl | hlt
      · exact le_rfl
      · have := h i j (by simp; omega) (by simp; omega) hlt
        simp only [List.getElem_range] at this
        exact_mod_cast this
    · intro h i j hi hj hij
      simp only [List.length_range] at hj
      simp only [List.getElem_range]
      exact_mod_cast h i j hij.le (by omega)
  · rw [hshown, ← hundred_iff]
    simp only [List.mem_map, List.mem_range, Nat.lt_succ_iff]
    norm_cast

end Smp
end NrfSamples
