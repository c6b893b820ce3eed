/-
# A response in parts

`bt_dfu_smp` calls the handler of a command with one part of the response after
the other, each at the offset where the one before ended, until the response is
complete; the total size is computed from the header in the first part.
`Parts.deliver` is this sequence of calls for any of the handlers in
`bootloader_samples/client_smp/smp_client_ble/src/main.c`.

`deliver_completion`: only the last call is made with a complete response, and
when the response fits the buffer, that call finds exactly the response in it,
however it was split and whatever the buffer held before.
-/

import NrfSamples.Smp.Handler

namespace NrfSamples
namespace Smp

open Cbor Zcbor

/-- A response: a header, and as many bytes as it says. -/
structure Response where
  bytes : List UInt8
  size : bytes.length = headerSize + hdrLen bytes

/-- The response fits the buffer. -/
def Response.Fits (r : Response) : Prop := r.bytes.length ≤ bufferSize

instance (r : Response) : Decidable r.Fits := inferInstanceAs (Decidable (_ ≤ _))

/-- A response split into parts; the first has the whole header. -/
structure Parts (r : Response) where
  first : List UInt8
  others : List (List UInt8)
  header : headerSize ≤ first.length
  whole : first ++ others.flatten = r.bytes

/-- The calls of a handler for the parts from `offset` on. -/
def receiveParts (proc : RspPart → Statics → RspResult) (total : ℕ) :
    ℕ → List (List UInt8) → Statics → List RspResult
  | _, [], _ => []
  | offset, d :: ds, s =>
      let p : RspPart := ⟨offset, d, total⟩
      proc p s ::
        if p.totalCheck then []
        else receiveParts proc total (offset + d.length) ds (proc p s).statics

/-- The calls of a handler for a response. -/
def Parts.deliver {r : Response} (ps : Parts r) (proc : RspPart → Statics → RspResult)
    (s : Statics) : List RspResult :=
  receiveParts proc (headerSize + hdrLen ps.first) 0 (ps.first :: ps.others) s

/-- How often these calls gave the semaphore. -/
def totalGives (results : List RspResult) : ℕ := (results.map fun q => q.eff.gives).sum

/-- A response in one part. -/
def Parts.single (r : Response) : Parts r where
  first := r.bytes
  others := []
  header := by rw [r.size]; omega
  whole := by simp

theorem Parts.hdrLen_first {r : Response} (ps : Parts r) : hdrLen ps.first = hdrLen r.bytes := by
  apply hdrLen_congr
  rw [← ps.whole, List.take_append_of_le_length ps.header]

/-! ### What is in the buffer -/

/-- The first `n` bytes in the buffer are those of the response. -/
def Filled (r : List UInt8) (n : ℕ) (b : SmpBuffer) : Prop := b.bytes.take n = r.take n

theorem filled_zero (r : List UInt8) (b : SmpBuffer) : Filled r 0 b := rfl

/-- A part copied behind what is filled. -/
theorem Filled.receive {r rest : List UInt8} {p : RspPart} {b : SmpBuffer}
    (h : Filled r p.offset b) (hp : p.Inside) (hr : r.drop p.offset = p.data ++ rest) :
    Filled r (p.offset + p.data.length) (receive p b) := by
  have hlen : (b.bytes.take p.offset).length = p.offset := by
    have := b.size
    have : p.offset + p.data.length ≤ bufferSize := hp
    rw [List.length_take]
    omega
  have hwrite : (Smp.receive p b).bytes =
      b.bytes.take p.offset ++ (p.data ++ b.bytes.drop (p.offset + p.data.length)) := by
    rw [Smp.receive, dif_pos hp]
    rfl
  have hdata : r.take (p.offset + p.data.length) = r.take p.offset ++ p.data := by
    rw [List.take_add, hr, List.take_left' rfl]
  rw [Filled, hwrite, hdata, ← List.append_assoc, h]
  apply List.take_left'
  rw [List.length_append, ← h, hlen]

/-- A part behind the header leaves the header as it is. -/
theorem receive_header {p : RspPart} (b : SmpBuffer) (hp : headerSize ≤ p.offset) :
    (receive p b).bytes.take headerSize = b.bytes.take headerSize := by
  unfold receive
  split_ifs with h
  · have hlen : headerSize ≤ (b.bytes.take p.offset).length := by
      have := b.size
      have : p.offset + p.data.length ≤ bufferSize := h
      rw [List.length_take]
      omega
    change List.take headerSize (b.bytes.take p.offset ++ _) = _
    rw [List.take_append_of_le_length hlen, List.take_take, Nat.min_eq_left hp]
  · rfl

/-- A buffer with the whole response in it. -/
theorem Filled.header {r : Response} {b : SmpBuffer} (h : Filled r.bytes r.bytes.length b) :
    b.bytes.take headerSize = r.bytes.take headerSize := by
  have hsize := r.size
  have htake := congrArg (List.take headerSize) h
  rwa [List.take_take, List.take_take, Nat.min_eq_left (by omega)] at htake

/-- **What zcbor is given is the payload of the response.** -/
theorem Filled.window {r : Response} {b : SmpBuffer} (h : Filled r.bytes r.bytes.length b)
    (hfits : r.Fits) (m : Memory) : b.window m (hdrLen b.bytes) = payloadOf r.bytes := by
  have hsize := r.size
  have hle : r.bytes.length ≤ bufferSize := hfits
  have hnone : hdrLen r.bytes - payloadSize = 0 := by
    unfold bufferSize at hle
    omega
  rw [hdrLen_congr h.header, SmpBuffer.window, hnone, List.range_zero, List.map_nil,
    List.append_nil, SmpBuffer.payload, payloadOf, List.take_drop, ← hsize, h, List.take_length]

/-! ### The calls for a response -/

/-- One of the bytes that a call copied. -/
def Covers (q : RspResult) (i : ℕ) : Prop := ∃ o n, q.copy = some (o, n) ∧ o ≤ i ∧ i < o + n

/-- The calls `pre`, which only copy, and then the call with the part `p` in the
state `t`, bring a response that is there up to `offset` in the state `s`. -/
structure Completion (proc : RspPart → Statics → RspResult) (r : List UInt8) (offset : ℕ)
    (s : Statics) (pre : List RspResult) (p : RspPart) (t : Statics) : Prop where
  size : p.offset + p.data.length = r.length
  complete : p.totalCheck = true
  behind : offset ≤ p.offset
  before : ∀ q ∈ pre, ∃ p' s', q = proc p' s' ∧ p'.totalCheck = false ∧ offset ≤ p'.offset
  primary : t.hashPrimary = s.hashPrimary
  secondary : t.hashSecondary = s.hashSecondary
  header : headerSize ≤ offset →
    (receive p t.rsp).bytes.take headerSize = s.rsp.bytes.take headerSize
  filled : r.length ≤ bufferSize → Filled r offset s.rsp → Filled r r.length (receive p t.rsp)
  covered : r.length ≤ bufferSize → ∀ i, offset ≤ i → i < r.length →
    ∃ q ∈ pre ++ [proc p t], Covers q i

section Calls

variable (c : HeaderCheck) (onPart : RspPart → List Print) (onTotal : List Print)
  (decode : List UInt8 → Effect → Effect) (m : Memory)

/-- A call with an incomplete response keeps the stored hashes. -/
theorem rspProc_hashes {p : RspPart} (s : Statics) (hp : p.totalCheck = false) :
    (rspProc c onPart onTotal decode m p s).eff.hashPrimary = s.hashPrimary ∧
      (rspProc c onPart onTotal decode m p s).eff.hashSecondary = s.hashSecondary ∧
      (rspProc c onPart onTotal decode m p s).eff.gives = 0 := by
  obtain ⟨log, hlog⟩ := rspProc_eff_of_not c onPart onTotal decode m p s (by simp [hp])
  rw [hlog]
  exact ⟨rfl, rfl, rfl⟩

theorem covers_rspProc {p : RspPart} {s : Statics} (hp : p.Inside) {i : ℕ} (h₁ : p.offset ≤ i)
    (h₂ : i < p.offset + p.data.length) :
    Covers (rspProc c onPart onTotal decode m p s) i :=
  ⟨p.offset, p.data.length, by rw [rspProc_copy, copyOf, if_pos hp], h₁, h₂⟩

/-- A part of a response that fits is inside the buffer. -/
theorem part_inside {r d : List UInt8} {offset : ℕ} (hle : offset + d.length ≤ r.length)
    (h : r.length ≤ bufferSize) : (⟨offset, d, r.length⟩ : RspPart).Inside :=
  Nat.le_trans hle h

section Part

variable {r d rest : List UInt8} {offset : ℕ} {s t : Statics} {pre : List RspResult} {p : RspPart}
  (hds : r.drop offset = d ++ rest)

include hds

/-- The bytes of a part are bytes of the response. -/
theorem part_le (hmore : offset < r.length) : offset + d.length ≤ r.length := by
  have hlen := congrArg List.length hds
  rw [List.length_drop, List.length_append] at hlen
  omega

/-- The last call. -/
theorem Completion.single (hsize : offset + d.length = r.length) :
    Completion (rspProc c onPart onTotal decode m) r offset s [] ⟨offset, d, r.length⟩ s where
  size := hsize
  complete := decide_eq_true hsize.ge
  behind := le_rfl
  before := by simp
  primary := rfl
  secondary := rfl
  header := fun h => receive_header s.rsp h
  filled := fun h hf => by
    rw [← hsize]
    exact hf.receive (part_inside hsize.le h) hds
  covered := fun h i hi hi' =>
    ⟨_, List.mem_singleton_self _, covers_rspProc c onPart onTotal decode m
      (part_inside hsize.le h) hi (by dsimp only; omega)⟩

/-- A call that only copies, before the others. -/
theorem Completion.cons (hshort : offset + d.length < r.length)
    (hc : Completion (rspProc c onPart onTotal decode m) r (offset + d.length)
      (rspProc c onPart onTotal decode m ⟨offset, d, r.length⟩ s).statics pre p t) :
    Completion (rspProc c onPart onTotal decode m) r offset s
      (rspProc c onPart onTotal decode m ⟨offset, d, r.length⟩ s :: pre) p t := by
  have hp : (⟨offset, d, r.length⟩ : RspPart).totalCheck = false :=
    decide_eq_false (Nat.not_le.2 hshort)
  obtain ⟨h₁, h₂, -⟩ := rspProc_hashes c onPart onTotal decode m s hp
  have hrsp : (rspProc c onPart onTotal decode m ⟨offset, d, r.length⟩ s).statics.rsp =
      receive ⟨offset, d, r.length⟩ s.rsp := rspProc_rsp c onPart onTotal decode m _ s
  exact {
    size := hc.size
    complete := hc.complete
    behind := by have := hc.behind; omega
    before := by
      intro q hq
      rcases List.mem_cons.1 hq with rfl | hq
      · exact ⟨_, _, rfl, hp, le_rfl⟩
      · obtain ⟨p', s', hq, hp', hle⟩ := hc.before q hq
        exact ⟨p', s', hq, hp', by omega⟩
    primary := hc.primary.trans h₁
    secondary := hc.secondary.trans h₂
    header := fun h => by
      rw [hc.header (by omega), hrsp]
      exact receive_header s.rsp h
    filled := fun h hf => hc.filled h (by
      rw [hrsp]
      exact hf.receive (part_inside hshort.le h) hds)
    covered := fun h i hi hi' => by
      by_cases hd : i < offset + d.length
      · exact ⟨_, List.mem_cons_self, covers_rspProc c onPart onTotal decode m (part_inside hshort.le h) hi hd⟩
      · obtain ⟨q, hq, hcov⟩ := hc.covered h i (by omega) hi'
        exact ⟨q, List.mem_cons_of_mem _ hq, hcov⟩ }

end Part

/-- **The calls from `offset` on.**  Induction on the parts left. -/
theorem receiveParts_completion {r : List UInt8} (ds : List (List UInt8)) {offset : ℕ}
    (hds : r.drop offset = ds.flatten) (hmore : offset < r.length) (s : Statics) :
    ∃ pre p t, receiveParts (rspProc c onPart onTotal decode m) r.length offset ds s =
        pre ++ [rspProc c onPart onTotal decode m p t] ∧
      Completion (rspProc c onPart onTotal decode m) r offset s pre p t := by
  induction ds generalizing offset s with
  | nil =>
    rw [List.flatten_nil, List.drop_eq_nil_iff] at hds
    omega
  | cons d ds ih =>
    rw [List.flatten_cons] at hds
    have hle := part_le hds hmore
    by_cases hp : (⟨offset, d, r.length⟩ : RspPart).totalCheck = true
    · have hall : r.length ≤ offset + d.length := of_decide_eq_true hp
      exact ⟨[], ⟨offset, d, r.length⟩, s, by rw [receiveParts]; simp [hp],
        .single c onPart onTotal decode m hds (by omega)⟩
    · rw [Bool.not_eq_true] at hp
      have hshort : offset + d.length < r.length := Nat.not_le.1 (of_decide_eq_false hp)
      have hrest : r.drop (offset + d.length) = ds.flatten := by
        rw [← List.drop_drop, hds, List.drop_left' rfl]
      obtain ⟨pre, p, t, hrun, hc⟩ := ih hrest hshort
        (rspProc c onPart onTotal decode m ⟨offset, d, r.length⟩ s).statics
      refine ⟨_ :: pre, p, t, ?_, .cons c onPart onTotal decode m hds hshort hc⟩
      rw [receiveParts]
      simp only [hp, Bool.false_eq_true, if_false]
      rw [hrun, List.cons_append]

/-- **The calls for a response.** -/
theorem deliver_completion {r : Response} (ps : Parts r) (s : Statics) :
    ∃ pre p t, ps.deliver (rspProc c onPart onTotal decode m) s =
        pre ++ [rspProc c onPart onTotal decode m p t] ∧
      Completion (rspProc c onPart onTotal decode m) r.bytes 0 s pre p t := by
  have htotal : headerSize + hdrLen ps.first = r.bytes.length := by
    rw [ps.hdrLen_first, r.size]
  rw [Parts.deliver, htotal]
  refine receiveParts_completion c onPart onTotal decode m _ ?_ ?_ s
  · rw [List.drop_zero, List.flatten_cons, ps.whole]
  · rw [r.size]
    exact Nat.lt_add_right _ (by decide)

/-- **The outcome of a response that fits.**  The effects of all calls are those
of decoding its payload, if its header passes; otherwise nothing is given. -/
theorem deliver_eff_of_fits {r : Response} (hfits : r.Fits) (ps : Parts r) (s : Statics) :
    ∃ pre last log, ps.deliver (rspProc c onPart onTotal decode m) s = pre ++ [last] ∧
      totalGives (ps.deliver (rspProc c onPart onTotal decode m) s) = last.eff.gives ∧
      last.eff =
        if c.Accepts r.bytes then decode (payloadOf r.bytes) (s.effect log) else s.effect log := by
  obtain ⟨pre, p, t, hrun, hc⟩ := deliver_completion c onPart onTotal decode m ps s
  have hfilled := hc.filled hfits (filled_zero r.bytes s.rsp)
  have hgives : totalGives pre = 0 := by
    rw [totalGives, List.sum_eq_zero_iff_forall_eq_nat]
    intro g hg
    obtain ⟨q, hq, rfl⟩ := List.mem_map.1 hg
    obtain ⟨p', s', rfl, hp', _⟩ := hc.before q hq
    exact (rspProc_hashes c onPart onTotal decode m s' hp').2.2
  have heffect : ∀ log, t.effect log = s.effect log := by
    intro log
    rw [Statics.effect, Statics.effect, hc.primary, hc.secondary]
  have haccepts := c.accepts_congr hfilled.header
  have htotal : totalGives (pre ++ [rspProc c onPart onTotal decode m p t]) =
      (rspProc c onPart onTotal decode m p t).eff.gives := by
    rw [totalGives, List.map_append, List.sum_append]
    simpa [totalGives] using hgives
  rw [hrun, htotal]
  by_cases ha : c.Accepts r.bytes
  · have heff := rspProc_eff_of_accepts c onPart onTotal decode m p t hc.complete
      (haccepts.2 ha)
    rw [hfilled.window hfits, heffect] at heff
    exact ⟨pre, _, _, rfl, rfl, by rw [if_pos ha]; exact heff⟩
  · obtain ⟨log, hlog⟩ := rspProc_eff_of_not c onPart onTotal decode m p t
      (fun h => ha (haccepts.1 h.2))
    exact ⟨pre, _, log, rfl, rfl, by rw [if_neg ha, hlog, heffect]⟩

end Calls

end Smp
end NrfSamples
