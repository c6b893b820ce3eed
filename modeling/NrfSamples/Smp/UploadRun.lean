/-
# The reads of a run of `send_upload2`

The loop of `send_upload2` in `bootloader_samples/client_smp/smp_client_ble/src/main.c`,
when no step fails and the semaphore is always given (`passes`): the calls of
`progress_print` and `flash_read` that its iterations make, and the store
`data[upload_chunk]`.

The loop ends by a flag that a strict comparison sets, and the last chunk may be
empty.  `passes_coverSlot`: it takes `size / UPLOAD_CHUNK + 1` iterations, no more
and no fewer, and their reads are consecutive ranges from the start of the slot
to its end.
-/

import NrfSamples.Ranges.Span
import NrfSamples.Smp.Tiling

namespace NrfSamples
namespace Smp

open Ranges Zcbor

/-- What is wanted of the calls `cs` of a run: their number, the bounds of the
locals, reads inside the slot, one behind the other, without overlap and with
nothing left out, the NUL inside the array, and a progress bar that makes sense. -/
structure CoverSlot (S : Slot) (cs : List Calls) : Prop where
  rounds : cs.length = S.size / chunkSize + 1
  addr : ∀ c ∈ cs, S.startAddr ≤ c.locals.currAddr ∧ c.locals.currAddr ≤ S.lastAddr
  chunk : ∀ c ∈ cs, 0 ≤ c.locals.uploadChunk ∧ c.locals.uploadChunk ≤ chunkSize
  inside : ∀ c ∈ cs, S.startAddr ≤ c.read.1 ∧ 0 ≤ c.read.2 ∧ c.read.1 + c.read.2 ≤ S.lastAddr
  consecutive : Span S.startAddr (cs.map Calls.read) S.lastAddr
  disjoint : cs.Pairwise fun c c' => c.read.1 + c.read.2 ≤ c'.read.1
  covers : ∀ a, S.startAddr ≤ a → a < S.lastAddr →
    ∃ c ∈ cs, c.read.1 ≤ a ∧ a < c.read.1 + c.read.2
  store : ∀ c ∈ cs, c.nul.size = chunkSize + 1 ∧ c.nul.used ≤ c.nul.size
  progress : ∀ c ∈ cs, c.progress.1 ≤ c.progress.2 ∧ 0 < c.progress.2

/-- The arguments of `progress_print`: differences of addresses of the slot are
small, so converting them to `size_t` keeps them. -/
theorem progress_args {S : Slot} {w : Locals} (hlo : S.startAddr ≤ w.currAddr)
    (hhi : w.currAddr ≤ S.lastAddr) : w.downloaded S ≤ S.fileSize ∧ 0 < S.fileSize := by
  have hnonneg := S.nonneg
  have hlt := S.lt
  have hfits := S.fits
  have hword : ∀ v : ℤ, 0 ≤ v → v < 2 ^ 32 → (UInt32.ofInt v).toNat = v.toNat := by
    intro v h₀ h
    rw [UInt32.ofInt, UInt32.toNat_ofNat']
    omega
  have hdown := hword (w.currAddr - S.startAddr) (by omega) (by omega)
  have hsize := hword (S.lastAddr - S.startAddr) (by omega) (by omega)
  constructor
  · rw [UInt32.le_iff_toNat_le, Locals.downloaded, Slot.fileSize, hdown, hsize]
    omega
  · rw [UInt32.lt_iff_toNat_lt, Slot.fileSize, hsize, UInt32.toNat_zero]
    omega

theorem passes_complete (z : ZcborEncoder) (S : Slot) (flash : ℕ → ℤ → UInt8) (fuel i : ℕ)
    {v : Locals} (h : v.updateComplete = true) : passes z S flash fuel i v = some [] := by
  cases fuel <;> rw [passes, if_pos h]

/-- The locals after an iteration. -/
def Locals.after (S : Slot) (flash : ℤ → UInt8) (v : Locals) : Locals :=
  advance (readChunk flash (chooseChunk S v))

/-- The calls of `n` iterations, from iteration `i` and the locals `v` on: the addresses
and ranges of their reads, the bounds of the chunks and the size of the array. -/
structure PassesFrom (S : Slot) (i : ℕ) (v : Locals) (n : ℕ) (cs : List Calls) : Prop where
  addr : cs.map (fun c => c.locals.currAddr) =
    (List.range' i n).map fun j : ℕ => S.startAddr + chunkSize * j
  span : Span v.currAddr (cs.map Calls.read) S.lastAddr
  chunk : ∀ c ∈ cs, c.locals.uploadChunk ≤ chunkSize
  data : ∀ c ∈ cs, c.locals.data.length = chunkSize + 1
  calls : ∀ c ∈ cs, c.OfLocals S

section Step

variable (z : ZcborEncoder) {S : Slot} {i : ℕ} {v : Locals} (h : AtChunk S i v)

include h

/-- The run is not over before an iteration. -/
theorem passes_zero (flash : ℕ → ℤ → UInt8) : passes z S flash 0 i v = none := by
  rw [passes, h.complete]
  rfl

/-- An iteration, and then the others: one more than they take. -/
theorem passes_succ {flash : ℕ → ℤ → UInt8} {n : ℕ} {cs : List Calls}
    (hrest : ∀ fuel, passes z S flash fuel (i + 1) (v.after S (flash i)) =
      if n ≤ fuel then some cs else none) :
    ∃ c, c.locals = chooseChunk S v ∧ c.OfLocals S ∧
      ∀ fuel, passes z S flash fuel i v = if n + 1 ≤ fuel then some (c :: cs) else none := by
  obtain ⟨f, hf, -⟩ := uploadFrame_spec z S _ (h.readChunk (flash i)).1
  obtain ⟨c, hround, -, hlocals, hcalls⟩ := round_of_frame z S hf
  refine ⟨c, hlocals, hcalls, fun fuel => ?_⟩
  cases fuel with
  | zero =>
    rw [passes_zero z h]
    rfl
  | succ fuel =>
    rw [passes, h.complete, hround]
    simp only [Bool.false_eq_true, if_false]
    rw [show advance (readChunk (flash i) (chooseChunk S v)) = v.after S (flash i) from rfl, hrest]
    split_ifs <;> first | rfl | omega

/-- The calls of an iteration, before those of the others. -/
theorem PassesFrom.cons {flash : ℤ → UInt8} {n : ℕ} {cs : List Calls} {c : Calls}
    (hlocals : c.locals = chooseChunk S v) (hcalls : c.OfLocals S)
    (hfrom : PassesFrom S (i + 1) (v.after S flash) n cs) :
    PassesFrom S i v (n + 1) (c :: cs) := by
  obtain ⟨haddr, hchunk, hdata, -⟩ := h.chooseChunk
  have hcurr : c.locals.currAddr = v.currAddr := by
    rw [hlocals, haddr, h.addr]
  have hnext : (v.after S flash).currAddr = v.currAddr + c.locals.uploadChunk := by
    rw [← hcurr, hlocals]
    rfl
  have hall : ∀ {P : Calls → Prop}, P c → (∀ c' ∈ cs, P c') → ∀ c' ∈ c :: cs, P c' :=
    fun hc hcs => List.forall_mem_cons.2 ⟨hc, hcs⟩
  refine ⟨?_, ?_, hall ?_ hfrom.chunk, hall ?_ hfrom.data, hall hcalls hfrom.calls⟩
  · rw [List.map_cons, hfrom.addr, hcurr, h.addr, List.range'_succ, List.map_cons]
  · rw [List.map_cons, hcalls.read, hcurr]
    exact .cons (by rw [hlocals, hchunk]; omega) (hnext ▸ hfrom.span)
  · rw [hlocals, hchunk]
    exact_mod_cast Nat.min_le_left _ _
  · rw [hlocals, hdata, h.data]

/-- After the last iteration the address is the end of the slot. -/
theorem AtChunk.after_last (flash : ℤ → UInt8) (hlast : S.size < chunkSize * (i + 1)) :
    (v.after S flash).updateComplete = true ∧ PassesFrom S (i + 1) (v.after S flash) 0 [] := by
  obtain ⟨haddr, hchunk, -, hcomplete⟩ := h.chooseChunk
  have hend : (v.after S flash).currAddr = S.lastAddr := by
    change (Smp.chooseChunk S v).currAddr + (Smp.chooseChunk S v).uploadChunk = _
    have hsize := S.size_eq
    have hle := h.le
    rw [haddr, hchunk]
    unfold chunkSize at *
    omega
  refine ⟨hcomplete.2 hlast, rfl, ?_, by simp, by simp, by simp⟩
  rw [hend]
  exact .nil _

end Step

/-- **A run from iteration `i` on.**  Induction on the whole chunks that are left;
the last iteration is the one without a whole chunk, also when nothing is left. -/
theorem passes_from (z : ZcborEncoder) {S : Slot} (flash : ℕ → ℤ → UInt8) (n : ℕ) {i : ℕ}
    {v : Locals} (h : AtChunk S i v) (hn : S.size / chunkSize = i + n) :
    ∃ cs, (∀ fuel, passes z S flash fuel i v = if n + 1 ≤ fuel then some cs else none) ∧
      PassesFrom S i v (n + 1) cs := by
  induction n generalizing i v with
  | zero =>
    have hlast : S.size < chunkSize * (i + 1) := by
      rw [show i + 1 = S.size / chunkSize + 1 by omega]
      exact Nat.lt_mul_div_succ _ (by decide)
    obtain ⟨hcomplete, hnone⟩ := h.after_last (flash i) hlast
    have hdone : ∀ fuel, passes z S flash fuel (i + 1) (v.after S (flash i)) =
        if 0 ≤ fuel then some [] else none := fun fuel => by
      rw [passes_complete z S flash fuel _ hcomplete, if_pos (Nat.zero_le _)]
    obtain ⟨c, hlocals, hcalls, hrun⟩ := passes_succ z h hdone
    exact ⟨[c], hrun, hnone.cons h hlocals hcalls⟩
  | succ n ih =>
    have hmore : chunkSize * (i + 1) ≤ S.size := by
      rw [Nat.mul_comm, ← Nat.le_div_iff_mul_le (by decide)]
      omega
    obtain ⟨cs, hcs, hfrom⟩ := ih (h.advance (flash i) hmore) (by omega)
    obtain ⟨c, hlocals, hcalls, hrun⟩ := passes_succ z h hcs
    exact ⟨c :: cs, hrun, hfrom.cons h hlocals hcalls⟩

/-- **The calls of these iterations cover the slot.** -/
theorem PassesFrom.coverSlot {S : Slot} {v : Locals} {cs : List Calls}
    (hstart : v.currAddr = S.startAddr)
    (hfrom : PassesFrom S 0 v (S.size / chunkSize + 1) cs) : CoverSlot S cs := by
  have hspan : Span S.startAddr (cs.map Calls.read) S.lastAddr := hstart ▸ hfrom.span
  have hin : ∀ c ∈ cs, S.startAddr ≤ c.read.1 ∧ 0 ≤ c.read.2 ∧
      c.read.1 + c.read.2 ≤ S.lastAddr := fun c hc => hspan.inside (List.mem_map_of_mem hc)
  have hlocals : ∀ c ∈ cs, S.startAddr ≤ c.locals.currAddr ∧ 0 ≤ c.locals.uploadChunk ∧
      c.locals.currAddr + c.locals.uploadChunk ≤ S.lastAddr := fun c hc => by
    have := hin c hc
    rwa [(hfrom.calls c hc).read] at this
  exact {
    rounds := by simpa using congrArg List.length hfrom.addr
    addr := fun c hc => by have := hlocals c hc; omega
    chunk := fun c hc => ⟨(hlocals c hc).2.1, hfrom.chunk c hc⟩
    inside := hin
    consecutive := hspan
    disjoint := List.pairwise_map.1 hspan.disjoint
    covers := fun a hlo hhi => by
      obtain ⟨r, hr, hin⟩ := hspan.covers hlo hhi
      obtain ⟨c, hc, rfl⟩ := List.mem_map.1 hr
      exact ⟨c, hc, hin⟩
    store := fun c hc => by
      have hlen := hfrom.data c hc
      have hchunk := hfrom.chunk c hc
      rw [(hfrom.calls c hc).nul]
      refine ⟨hlen, ?_⟩
      dsimp only
      omega
    progress := fun c hc => by
      have := hlocals c hc
      rw [(hfrom.calls c hc).progress]
      exact progress_args this.1 (by omega) }

/-- **A run ends, and its reads cover the slot.**  For every slot, every content of
the flash at every read and every initial content of the array: the loop takes
exactly the iterations it should. -/
theorem passes_coverSlot (z : ZcborEncoder) (S : Slot) (flash : ℕ → ℤ → UInt8)
    (data : Vector UInt8 (chunkSize + 1)) :
    ∃ cs, CoverSlot S cs ∧ ∀ fuel, passes z S flash fuel 0 (Locals.start S data) =
      if S.size / chunkSize + 1 ≤ fuel then some cs else none := by
  obtain ⟨cs, hcs, hfrom⟩ := passes_from z flash (S.size / chunkSize) (AtChunk.start S data)
    (by omega)
  exact ⟨cs, hfrom.coverSlot rfl, hcs⟩

end Smp
end NrfSamples
