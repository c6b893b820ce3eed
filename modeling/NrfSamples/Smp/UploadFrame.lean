/-
# The frames of `send_upload2`

Every iteration of the loop of `send_upload2` in
`bootloader_samples/client_smp/smp_client_ble/src/main.c` hands one frame to
`bt_dfu_smp_command`.  The frame has two shapes, chosen by the offset, and its
numbers have different widths.

`uploadFrame_wellFormed`: in every iteration that a run can reach, whatever the
flash holds at each read, the encoding succeeds and fits the payload, the header
says how many bytes it has, and decoding it gives one map with exactly the pairs
of the request (`IsUploadMap`), none of them twice.
-/

import NrfSamples.Smp.Tiling

namespace NrfSamples
namespace Smp

open Cbor Zcbor

/-- The locals before an iteration of the loop: those of the start, or those
after an iteration that did not complete the update. -/
inductive Iterates (S : Slot) : Locals → Prop
  | start (data : Vector UInt8 (chunkSize + 1)) : Iterates S (Locals.start S data)
  | next {v : Locals} (flash : ℤ → UInt8) : Iterates S v →
      (chooseChunk S v).updateComplete = false →
        Iterates S (advance (readChunk flash (chooseChunk S v)))

/-- Every iteration starts at a chunk. -/
theorem Iterates.atChunk {S : Slot} {v : Locals} (h : Iterates S v) : ∃ i, AtChunk S i v := by
  induction h with
  | start data => exact ⟨0, AtChunk.start S data⟩
  | next flash _ hmore ih =>
    obtain ⟨i, hi⟩ := ih
    refine ⟨i + 1, hi.advance flash ?_⟩
    by_contra hlast
    rw [hi.chooseChunk.2.2.2.2 (not_le.1 hlast)] at hmore
    cases hmore

/-- The pairs of a map, from its keys and values in turn. -/
def pairsOf : List Item → List (Item × Item)
  | k :: v :: kvs => (k, v) :: pairsOf kvs
  | _ => []

/-- The keys and values `kvs` are those of the request of an iteration at `w`: no
key twice, and exactly these pairs. -/
structure IsUploadMap (S : Slot) (w : Locals) (kvs : List Item) : Prop where
  keys : ((pairsOf kvs).map Prod.fst).Nodup
  pairs : ∀ k v, (k, v) ∈ pairsOf kvs ↔
    (k = .text (ascii "image") ∧ v = .int 0) ∨
    (k = .text (ascii "data") ∧ v = .bytes (w.data.take chunkSize)) ∨
    (w.currAddr - S.startAddr = 0 ∧ k = .text (ascii "len") ∧
      v = .int (S.lastAddr - S.startAddr)) ∨
    (k = .text (ascii "off") ∧ v = .int (w.currAddr - S.startAddr)) ∨
    (w.currAddr - S.startAddr = 0 ∧ k = .text (ascii "sha") ∧ v = .bytes (ascii "12345")) ∨
    (k = .text (ascii "upgrade") ∧ v = .bool false)

/-- The frame of an iteration at `w`: it fits, its header has its length, and its
payload decodes to the map of the request. -/
structure IsUploadFrame (S : Slot) (w : Locals) (f : List UInt8) : Prop where
  fits : (payloadOf f).length ≤ payloadSize
  header : hdrLen f = (payloadOf f).length
  size : f.length = headerSize + (payloadOf f).length
  map : ∃ kvs, Encodes [.map kvs] (payloadOf f) ∧ parseMap (payloadOf f) = some kvs ∧
    IsUploadMap S w kvs

/-- The item of a difference of addresses. -/
theorem uint_u64 {v : ℤ} (h₀ : 0 ≤ v) (h : v < 2 ^ 64) : Item.uint (u64 v) = .int v := by
  have hv := u64_of_nonneg h₀ h
  rw [Item.int, if_pos h₀]
  congr 1
  omega

/-- The items of an iteration are the pairs of its request. -/
theorem isUploadMap_items {S : Slot} {w : Locals} (hlo : S.startAddr ≤ w.currAddr)
    (hhi : w.currAddr ≤ S.lastAddr) (hdata : w.data.length = chunkSize + 1) :
    IsUploadMap S w (w.items S) := by
  have hnonneg := S.nonneg
  have hlt := S.lt
  have hfits := S.fits
  have hoff : Item.uint (w.off S) = .int (w.currAddr - S.startAddr) :=
    uint_u64 (by omega) (by omega)
  have hlen : Item.uint (u64 (S.lastAddr - S.startAddr)) = .int (S.lastAddr - S.startAddr) :=
    uint_u64 (by omega) (by omega)
  have himage : Item.uint 0 = .int 0 := rfl
  have hlit : litBytes w.data = w.data.take chunkSize := by rw [litBytes, hdata]; rfl
  have hzero : w.off S = 0 ↔ w.currAddr - S.startAddr = 0 := by
    have : (w.off S : ℤ) = w.currAddr - S.startAddr := u64_of_nonneg (by omega) (by omega)
    omega
  have hkeys : [ascii "image", ascii "data", ascii "len", ascii "off", ascii "sha",
      ascii "upgrade"].Nodup := by decide
  unfold Locals.items
  rw [hoff, hlen, himage, hlit]
  constructor
  · split_ifs
    · simpa [pairsOf] using hkeys
    · have hshort : [ascii "image", ascii "data", ascii "off", ascii "upgrade"].Nodup := by decide
      simpa [pairsOf] using hshort
  · intro k v
    rw [← hzero]
    split_ifs with h <;>
      simp only [pairsOf, List.mem_cons, List.not_mem_nil, Prod.mk.injEq, h, true_and, false_and,
        false_or, or_false]

/-- **The frame of an iteration.** -/
theorem AtChunk.isUploadFrame (z : ZcborEncoder) {S : Slot} {i : ℕ} {v : Locals}
    (h : AtChunk S i v) (flash : ℤ → UInt8) :
    ∃ f, uploadFrame z S (Smp.readChunk flash (Smp.chooseChunk S v)) = some f ∧
      IsUploadFrame S (Smp.readChunk flash (Smp.chooseChunk S v)) f := by
  obtain ⟨haddr, -, -, -⟩ := h.chooseChunk
  obtain ⟨hdata, -⟩ := h.readChunk flash
  have hsize := S.size_eq
  have hle := h.le
  have hcurr : (Smp.readChunk flash (Smp.chooseChunk S v)).currAddr =
      S.startAddr + chunkSize * i := haddr
  generalize Smp.readChunk flash (Smp.chooseChunk S v) = w at hcurr hdata ⊢
  have hfit := w.length_itemBytes S hdata
  have hpayload : (w.payloadBytes S).length ≤ payloadSize := by
    rw [Locals.payloadBytes, List.length_cons, List.length_append, List.length_singleton]
    exact hfit
  refine ⟨_, uploadFrame_eq z S w hdata, hpayload, ?_, length_frame 2 1 1 _, w.items S,
    w.encodes_payload S hdata, parseMap_of_encodes (w.encodes_payload S hdata),
    isUploadMap_items (by rw [hcurr]; omega) (by rw [hcurr]; unfold chunkSize at *; omega) hdata⟩
  rw [payloadOf_frame]
  exact hdrLen_frame 2 1 1 (by unfold payloadSize at hpayload; omega)

/-- **Every frame of the loop is well formed.**  For every slot, every iteration
that a run reaches and every content of the flash. -/
theorem uploadFrame_wellFormed (z : ZcborEncoder) (S : Slot) (v : Locals) (h : Iterates S v)
    (flash : ℤ → UInt8) :
    ∃ f, uploadFrame z S (readChunk flash (chooseChunk S v)) = some f ∧
      IsUploadFrame S (readChunk flash (chooseChunk S v)) f := by
  obtain ⟨i, hi⟩ := h.atChunk
  exact hi.isUploadFrame z flash

/-- The locals before the second iteration for a slot of 200 bytes. -/
def secondLocals : Locals :=
  advance (readChunk (fun _ => 7) (chooseChunk twoChunkSlot
    (Locals.start twoChunkSlot (Vector.replicate (chunkSize + 1) 0))))

/-- The frame of that iteration, without `len` and `sha`. -/
theorem uploadFrame_wellFormed_second :
    secondLocals.off twoChunkSlot = 150 ∧
      ∃ f, uploadFrame documentedEncoder twoChunkSlot
          (readChunk (fun _ => 9) (chooseChunk twoChunkSlot secondLocals)) = some f ∧
        IsUploadFrame twoChunkSlot
          (readChunk (fun _ => 9) (chooseChunk twoChunkSlot secondLocals)) f :=
  ⟨rfl, uploadFrame_wellFormed documentedEncoder twoChunkSlot secondLocals
    (.next (fun _ => 7) (.start _) rfl) fun _ => 9⟩

end Smp
end NrfSamples
