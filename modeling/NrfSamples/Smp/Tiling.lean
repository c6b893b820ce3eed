/-
# What a run of `send_upload2` sends

The frames of a run should tile the secondary slot: the first at offset 0, each
later one where the one before ended, each with the flash bytes of its range,
together exactly the bytes of the slot (`Tiles`).

`sendUpload2_spec` gives the run.  There are `size / UPLOAD_CHUNK + 1` frames,
frame `i` has offset `UPLOAD_CHUNK * i`, and its `data` has `UPLOAD_CHUNK` bytes,
the flash bytes as far as the slot goes.  In the last frame the chunk that was
read is shorter, possibly empty, but `zcbor_bstr_put_lit(zse, data)` encodes
`sizeof(data) - 1` bytes all the same: the NUL behind the chunk, and then what
the array held before.  So no run tiles its slot (`sendUpload2_not_tiles`).
-/

import NrfSamples.Smp.SendUpload

namespace NrfSamples
namespace Smp

open Cbor Zcbor

/-- The locals before round `i`, which starts at offset `UPLOAD_CHUNK * i`. -/
structure AtChunk (S : Slot) (i : ℕ) (v : Locals) : Prop where
  addr : v.currAddr = S.startAddr + chunkSize * i
  chunk : v.uploadChunk = chunkSize
  complete : v.updateComplete = false
  data : v.data.length = chunkSize + 1
  le : chunkSize * i ≤ S.size

theorem AtChunk.start (S : Slot) (data : Vector UInt8 (chunkSize + 1)) :
    AtChunk S 0 (Locals.start S data) where
  addr := by simp [Locals.start]
  chunk := rfl
  complete := rfl
  data := by simp [Locals.start]
  le := by simp

/-- The request of round `i`: a whole chunk of data, whose bytes are those of
the slot as far as the slot goes. -/
structure CarriesChunk (S : Slot) (flash : ℤ → UInt8) (i : ℕ) (q : UploadReq) : Prop where
  off : q.off = chunkSize * i
  length : q.data.length = chunkSize
  data : q.data.take (S.size - chunkSize * i) =
    flashRead flash (S.startAddr + chunkSize * i) (min chunkSize (S.size - chunkSize * i) : ℕ)
  sha : q.sha = if i = 0 then some (ascii "12345") else none

@[simp] theorem length_flashRead (flash : ℤ → UInt8) (addr len : ℤ) :
    (flashRead flash addr len).length = len.toNat := by
  simp [flashRead]

theorem length_litBytes_of_length {data : List UInt8} (h : data.length = chunkSize + 1) :
    (litBytes data).length = chunkSize := by
  simp [litBytes, h]

/-- The array after a read of `n ≤ UPLOAD_CHUNK` bytes begins with them. -/
theorem take_litBytes_set (bs : List UInt8) {old : List UInt8} (hold : old.length = chunkSize + 1)
    (hbs : bs.length ≤ chunkSize) :
    (litBytes ((bs ++ old.drop bs.length).set bs.length 0)).take bs.length = bs ∧
      ((bs ++ old.drop bs.length).set bs.length 0).length = chunkSize + 1 := by
  have hlen : ((bs ++ old.drop bs.length).set bs.length 0).length = chunkSize + 1 := by
    simp only [List.length_set, List.length_append, List.length_drop]
    omega
  refine ⟨?_, hlen⟩
  rw [litBytes, hlen, Nat.add_sub_cancel, List.take_take, Nat.min_eq_left hbs,
    List.take_set_of_le le_rfl, List.take_left' rfl]

/-- The range of round `i`: a whole chunk, or what is left of the slot. -/
theorem AtChunk.chooseChunk {S : Slot} {i : ℕ} {v : Locals} (h : AtChunk S i v) :
    (chooseChunk S v).currAddr = S.startAddr + chunkSize * i ∧
      (chooseChunk S v).uploadChunk = (min chunkSize (S.size - chunkSize * i) : ℕ) ∧
      (chooseChunk S v).data = v.data ∧
      ((chooseChunk S v).updateComplete = true ↔ S.size < chunkSize * (i + 1)) := by
  have hsize := S.size_eq
  have hle := h.le
  have haddr := h.addr
  have hchunk := h.chunk
  unfold Smp.chooseChunk
  unfold chunkSize at *
  split_ifs with hc
  · exact ⟨haddr, by dsimp only; omega, rfl, iff_of_true rfl (by omega)⟩
  · refine ⟨haddr, by omega, rfl, ?_⟩
    rw [h.complete]
    simp only [Bool.false_eq_true, false_iff]
    omega

/-- The offset a round announces. -/
theorem Locals.off_eq {S : Slot} {i : ℕ} {v : Locals}
    (haddr : v.currAddr = S.startAddr + chunkSize * i) (hle : chunkSize * i ≤ S.size) :
    v.off S = chunkSize * i := by
  have hlt := S.size_lt
  have hdiff : v.currAddr - S.startAddr = (chunkSize * i : ℕ) := by
    rw [haddr]; push_cast; ring
  have h := u64_of_nonneg (v := v.currAddr - S.startAddr) (by omega) (by omega)
  rw [hdiff] at h
  rw [Locals.off, hdiff]
  exact_mod_cast h

/-- The array of round `i`: the bytes of its range, then whatever was there. -/
theorem AtChunk.readChunk {S : Slot} (flash : ℤ → UInt8) {i : ℕ} {v : Locals}
    (h : AtChunk S i v) :
    (readChunk flash (Smp.chooseChunk S v)).data.length = chunkSize + 1 ∧
      (litBytes (readChunk flash (Smp.chooseChunk S v)).data).take (S.size - chunkSize * i) =
        flashRead flash (S.startAddr + chunkSize * i)
          (min chunkSize (S.size - chunkSize * i) : ℕ) := by
  obtain ⟨haddr, hchunk, hdata, _⟩ := h.chooseChunk
  have hread : (flashRead flash (S.startAddr + chunkSize * i)
      (min chunkSize (S.size - chunkSize * i) : ℕ)).length =
        min chunkSize (S.size - chunkSize * i) := by
    rw [length_flashRead, Int.toNat_natCast]
  have hw : (Smp.readChunk flash (Smp.chooseChunk S v)).data =
      (flashRead flash (S.startAddr + chunkSize * i)
          (min chunkSize (S.size - chunkSize * i) : ℕ) ++
        v.data.drop (min chunkSize (S.size - chunkSize * i))).set
          (min chunkSize (S.size - chunkSize * i)) 0 := by
    rw [Smp.readChunk, Locals.fill, hdata, hchunk, haddr, Int.toNat_natCast]
  have hset := take_litBytes_set (flashRead flash (S.startAddr + chunkSize * i)
    (min chunkSize (S.size - chunkSize * i) : ℕ)) h.data (by rw [hread]; exact Nat.min_le_left _ _)
  rw [hread, ← hw] at hset
  refine ⟨hset.2, ?_⟩
  -- an array of `UPLOAD_CHUNK` bytes has no more than that to take
  have hmin := List.take_take (i := S.size - chunkSize * i) (j := chunkSize)
    (l := litBytes (Smp.readChunk flash (Smp.chooseChunk S v)).data)
  rw [List.take_of_length_le (i := chunkSize) (length_litBytes_of_length hset.2).le,
    Nat.min_comm] at hmin
  rw [hmin, hset.1]

/-- The locals after a round, if a whole chunk was left. -/
theorem AtChunk.advance {S : Slot} (flash : ℤ → UInt8) {i : ℕ} {v : Locals} (h : AtChunk S i v)
    (hmore : chunkSize * (i + 1) ≤ S.size) :
    AtChunk S (i + 1) (advance (Smp.readChunk flash (Smp.chooseChunk S v))) := by
  obtain ⟨haddr, hchunk, _, hcomplete⟩ := h.chooseChunk
  have hnotlast : (Smp.chooseChunk S v).updateComplete = false := by
    rw [← Bool.not_eq_true, hcomplete]
    omega
  have hwhole : min chunkSize (S.size - chunkSize * i) = chunkSize := by
    rw [Nat.mul_add] at hmore
    omega
  rw [hwhole] at hchunk
  refine ⟨?_, hchunk, hnotlast, (h.readChunk flash).1, hmore⟩
  change (Smp.chooseChunk S v).currAddr + (Smp.chooseChunk S v).uploadChunk = _
  rw [haddr, hchunk]
  push_cast
  ring

/-- **One round.**  It sends the request of its chunk, and goes on to the next
one if a whole chunk was left. -/
theorem round_spec (z : ZcborEncoder) {S : Slot} (flash : ℤ → UInt8) {i : ℕ} {v : Locals}
    (h : AtChunk S i v) :
    ∃ c q v', round z S flash v = some (c, v') ∧ readUploadReq c.frame = some q ∧
      CarriesChunk S flash i q ∧
      (S.size < chunkSize * (i + 1) → v'.updateComplete = true) ∧
      (chunkSize * (i + 1) ≤ S.size → AtChunk S (i + 1) v') := by
  obtain ⟨haddr, -, -, hcomplete⟩ := h.chooseChunk
  obtain ⟨hlen, htake⟩ := h.readChunk flash
  have hoff : (Smp.readChunk flash (chooseChunk S v)).off S = chunkSize * i :=
    Locals.off_eq haddr h.le
  obtain ⟨f, hf, hq⟩ := uploadFrame_spec z S (readChunk flash (chooseChunk S v)) hlen
  obtain ⟨c, hround, rfl, -⟩ := round_of_frame z S hf
  refine ⟨c, _, _, hround, hq, ?_, fun hlast => hcomplete.2 hlast, h.advance flash⟩
  refine ⟨hoff, length_litBytes_of_length hlen, htake, ?_⟩
  rw [Locals.req, hoff]
  simp [chunkSize]

/-- **A run from round `i` on.** -/
theorem sendAll_spec (z : ZcborEncoder) {S : Slot} (flash : ℤ → UInt8) (fuel : ℕ) {i : ℕ}
    {v : Locals} (h : AtChunk S i v) (hfuel : S.size - chunkSize * i < fuel) :
    ∃ (fs : List (List UInt8)) (qs : List UploadReq),
      sendAll z S flash fuel v = some fs ∧ fs.map readUploadReq = qs.map some ∧
      chunkSize * (i + qs.length - 1) ≤ S.size ∧ S.size < chunkSize * (i + qs.length) ∧
      ∀ j q, qs[j]? = some q → CarriesChunk S flash (i + j) q := by
  induction fuel generalizing i v with
  | zero => omega
  | succ fuel ih =>
    obtain ⟨c, q, v', hround, hq, hcarry, hlast, hmore⟩ := round_spec z flash h
    have hle := h.le
    have hrun : ∀ {fs}, sendAll z S flash fuel v' = some fs →
        sendAll z S flash (fuel + 1) v = some (c.frame :: fs) := by
      intro fs hfs
      rw [sendAll_succ z h.complete hround, hfs, Option.map_some]
    by_cases hend : S.size < chunkSize * (i + 1)
    · have hstop := sendAll_complete z S flash fuel (hlast hend)
      refine ⟨_, [q], hrun hstop, by simp [hq], by simpa using hle, by simpa using hend, ?_⟩
      intro j p hj
      obtain ⟨rfl, rfl⟩ : j = 0 ∧ q = p := by simpa [List.getElem?_singleton] using hj
      exact hcarry
    · rw [not_lt] at hend
      have hnext : S.size - chunkSize * (i + 1) < fuel := by
        unfold chunkSize at *; omega
      obtain ⟨fs, qs, hfs, hqs, hlo, hhi, hall⟩ := ih (hmore hend) hnext
      refine ⟨c.frame :: fs, q :: qs, hrun hfs, by simp [hq, hqs], ?_, ?_, ?_⟩
      · rw [List.length_cons, show i + (qs.length + 1) - 1 = i + 1 + qs.length - 1 by omega]
        exact hlo
      · rw [List.length_cons, show i + (qs.length + 1) = i + 1 + qs.length by omega]
        exact hhi
      · intro j p hj
        cases j with
        | zero =>
          obtain rfl : q = p := by simpa using hj
          exact hcarry
        | succ j =>
          rw [show i + (j + 1) = i + 1 + j by omega]
          exact hall j p (by simpa using hj)

/-- **The whole run.**  It ends, and frame `j` carries chunk `j`; the last chunk
is the first that is not whole. -/
theorem sendUpload2_spec (z : ZcborEncoder) (S : Slot) (flash : ℤ → UInt8)
    (data : Vector UInt8 (chunkSize + 1)) :
    ∃ (fs : List (List UInt8)) (qs : List UploadReq),
      sendUpload2 z S flash data = some fs ∧ fs.map readUploadReq = qs.map some ∧
      qs.length = S.size / chunkSize + 1 ∧
      ∀ j q, qs[j]? = some q → CarriesChunk S flash j q := by
  obtain ⟨fs, qs, hfs, hqs, hlo, hhi, hall⟩ :=
    sendAll_spec z flash (S.size + 1) (AtChunk.start S data) (by simp)
  refine ⟨fs, qs, hfs, hqs, ?_, fun j q hj => by simpa using hall j q hj⟩
  have hpos : 0 < qs.length := by
    rcases Nat.eq_zero_or_pos qs.length with h | h
    · rw [h] at hhi; simp at hhi
    · exact h
  simp only [Nat.zero_add] at hlo hhi
  have : S.size / chunkSize = qs.length - 1 := by
    apply Nat.div_eq_of_lt_le
    · rw [Nat.mul_comm]; exact hlo
    · rw [Nat.mul_comm, Nat.sub_add_cancel hpos]; exact hhi
  omega

/-- The requests tile the slot. -/
structure Tiles (S : Slot) (flash : ℤ → UInt8) (qs : List UploadReq) : Prop where
  first : qs.head?.map UploadReq.off = some 0
  chain : qs.IsChain fun p q => q.off = p.off + p.data.length
  content : ∀ q ∈ qs, q.data = flashRead flash (S.startAddr + q.off) q.data.length
  whole : (qs.map UploadReq.data).flatten = flashRead flash S.startAddr S.size

theorem length_flatten_data {qs : List UploadReq}
    (h : ∀ q ∈ qs, q.data.length = chunkSize) :
    (qs.map UploadReq.data).flatten.length = chunkSize * qs.length := by
  induction qs with
  | nil => simp
  | cons q qs ih =>
    rw [List.map_cons, List.flatten_cons, List.length_append, h q List.mem_cons_self,
      ih fun p hp => h p (List.mem_cons_of_mem _ hp), List.length_cons]
    ring

/-- Frames that carry the chunks of the slot carry more than its bytes. -/
theorem not_tiles_of_carriesChunk {S : Slot} {flash : ℤ → UInt8} {qs : List UploadReq}
    (hcount : qs.length = S.size / chunkSize + 1)
    (hall : ∀ j q, qs[j]? = some q → CarriesChunk S flash j q) : ¬ Tiles S flash qs := by
  intro htiles
  have hlen : ∀ q ∈ qs, q.data.length = chunkSize := by
    intro q hq
    obtain ⟨j, hj⟩ := List.mem_iff_getElem?.1 hq
    exact (hall j q hj).length
  have hsum := congrArg List.length htiles.whole
  rw [length_flatten_data hlen, length_flashRead, Int.toNat_natCast, hcount] at hsum
  have := Nat.div_add_mod S.size chunkSize
  have := Nat.mod_lt S.size (show 0 < chunkSize by decide)
  rw [Nat.mul_add] at hsum
  omega

/-- **No run tiles its slot.**  The frames together carry more than the bytes of
the slot. -/
theorem sendUpload2_not_tiles (z : ZcborEncoder) (S : Slot) (flash : ℤ → UInt8)
    (data : Vector UInt8 (chunkSize + 1)) :
    ∃ (fs : List (List UInt8)) (qs : List UploadReq),
      sendUpload2 z S flash data = some fs ∧ fs.map readUploadReq = qs.map some ∧
      ¬ Tiles S flash qs := by
  obtain ⟨fs, qs, hfs, hqs, hcount, hall⟩ := sendUpload2_spec z S flash data
  exact ⟨fs, qs, hfs, hqs, not_tiles_of_carriesChunk hcount hall⟩

/-- A slot of ten bytes: the one frame sent carries 150. -/
theorem not_tiles_ten_bytes :
    ∃ f q, sendUpload2 documentedEncoder tenByteSlot (fun _ => 7)
        (Vector.replicate (chunkSize + 1) 1) = some [f] ∧
      readUploadReq f = some q ∧ q.data.length = 150 ∧ ¬ Tiles tenByteSlot (fun _ => 7) [q] := by
  obtain ⟨fs, qs, hfs, hqs, hcount, hall⟩ := sendUpload2_spec documentedEncoder tenByteSlot
    (fun _ => 7) (Vector.replicate (chunkSize + 1) 1)
  have hone : qs.length = 1 := hcount
  obtain ⟨q, rfl⟩ := List.length_eq_one_iff.1 hone
  obtain ⟨f, rfl⟩ : ∃ f, fs = [f] := List.length_eq_one_iff.1 (by simpa using congrArg List.length hqs)
  exact ⟨f, q, hfs, by simpa using hqs, (hall 0 q rfl).length,
    not_tiles_of_carriesChunk hcount hall⟩

end Smp
end NrfSamples
