/-
# Uploading to a server that resumes

A run of `send_upload2` in `bootloader_samples/client_smp/smp_client_ble/src/main.c`
against an SMP server that may hold an unfinished upload.  The server keeps what
it has when a request with offset 0 names the `sha` of the unfinished upload,
starts over when it does not, appends the data of a request whose offset is the
number of bytes it has, and answers with that number.

The client names the same `sha` for every image and never looks at the number in
an answer: it sends chunk after chunk.  So the server may keep bytes of another
image, or refuse every chunk.  `session_spec` gives the outcome of a session
(`Stored`): the bytes kept and behind them the chunks from there on, if a chunk
begins there, else only the bytes kept.  `stored_eq_slot_iff` says when that is
the slot.
-/

import NrfSamples.Smp.Tiling
import NrfSamples.Smp.UploadRsp

namespace NrfSamples
namespace Smp

open Cbor Zcbor

/-- What the server has of an upload, and the `sha` it was started with. -/
structure Server where
  sha : Option (List UInt8)
  bytes : List UInt8
  deriving DecidableEq

/-- A request with offset 0 starts over, unless it names the `sha` of the upload. -/
def Server.restart (q : UploadReq) (sv : Server) : Server :=
  if q.off = 0 ∧ q.sha ≠ sv.sha then ⟨q.sha, []⟩ else sv

/-- What the server does with a request. -/
def Server.handle (q : UploadReq) (sv : Server) : Server :=
  let sv := sv.restart q
  if q.off = sv.bytes.length then { sv with bytes := sv.bytes ++ q.data } else sv

/-- An unfinished upload that the server may hold; its byte count is a number of
64 bits. -/
structure Unfinished where
  sha : List UInt8
  bytes : List UInt8
  count : bytes.length < 2 ^ 64

/-- The server before a session. -/
def Server.holding : Option Unfinished → Server
  | none => ⟨none, []⟩
  | some u => ⟨some u.sha, u.bytes⟩

/-- The answer to a request that leaves the server with `n` bytes. -/
def Answers (n : ℕ) (r : Response) : Prop :=
  uploadCheck.Accepts r.bytes ∧
    Encodes [.map [.text (ascii "rc"), .int 0, .text (ascii "off"), .int n]] (payloadOf r.bytes)

/-- The answers of a server in a session, by the number of the request and the
byte count, and how they are split into parts. -/
structure Peer where
  answer : ℕ → ℕ → Response
  parts : ∀ i n, Parts (answer i n)
  answers : ∀ i n, n < 2 ^ 64 → Answers n (answer i n)

/-- The static variables after the calls for a response. -/
def staticsAfter (results : List RspResult) (s : Statics) : Statics :=
  (results.getLast?.map RspResult.statics).getD s

/-- The session from round `i` on, when no read, encoding or command fails: the
server at its end, or `none` if the client is left waiting for the semaphore. -/
def sessionFrom (ze : ZcborEncoder) (zd : ZcborDecoder) (m : Memory) (peer : Peer) (S : Slot)
    (flash : ℤ → UInt8) : ℕ → ℕ → Locals → Server → Statics → Option Server
  | 0, _, _, _, _ => none
  | fuel + 1, i, v, sv, s =>
      match round ze S flash v with
      | none => none
      | some (c, v) =>
          match readUploadReq c.frame with
          | none => none
          | some q =>
              let sv := sv.handle q
              if v.updateComplete then some sv
              else
                let results := (peer.parts i sv.bytes.length).deliver (smpUploadRspProc zd m) s
                if totalGives results = 0 then none
                else
                  sessionFrom ze zd m peer S flash fuel (i + 1) v sv (staticsAfter results s)

/-- A session: one run of `send_upload2`. -/
def session (ze : ZcborEncoder) (zd : ZcborDecoder) (m : Memory) (peer : Peer) (S : Slot)
    (flash : ℤ → UInt8) (data : Vector UInt8 (chunkSize + 1)) (u : Option Unfinished)
    (s : Statics) : Option Server :=
  sessionFrom ze zd m peer S flash (S.size + 1) 0 (Locals.start S data) (.holding u) s

/-- The bytes of the slot. -/
def Slot.contents (S : Slot) (flash : ℤ → UInt8) : List UInt8 :=
  flashRead flash S.startAddr S.size

@[simp] theorem Slot.length_contents (S : Slot) (flash : ℤ → UInt8) :
    (S.contents flash).length = S.size := by
  simp [Slot.contents]

/-- The bytes of a chunk, in the slot. -/
theorem Slot.chunk_eq (S : Slot) (flash : ℤ → UInt8) (k : ℕ) :
    flashRead flash (S.startAddr + k) (min chunkSize (S.size - k) : ℕ) =
      ((S.contents flash).drop k).take chunkSize := by
  apply List.ext_getElem
  · rw [length_flashRead, Int.toNat_natCast, List.length_take, List.length_drop,
      S.length_contents]
  · intro i h₁ h₂
    simp [Slot.contents, flashRead, add_assoc]

/-! ### What the server stores -/

/-- What the server has after `i` requests, when it kept the bytes `kept`: the
chunks from `kept` on, if one of them began there, else only `kept`. -/
structure Stored (S : Slot) (flash : ℤ → UInt8) (kept : List UInt8) (i : ℕ) (bytes : List UInt8) :
    Prop where
  joined : chunkSize ∣ kept.length → kept.length < chunkSize * i →
    bytes.length = chunkSize * i ∧
      bytes.take S.size = (kept ++ (S.contents flash).drop kept.length).take (chunkSize * i)
  refused : ¬ (chunkSize ∣ kept.length ∧ kept.length < chunkSize * i) → bytes = kept

theorem Stored.zero (S : Slot) (flash : ℤ → UInt8) (kept : List UInt8) :
    Stored S flash kept 0 kept :=
  ⟨fun _ h => absurd h (by simp), fun _ => rfl⟩

theorem CarriesChunk.data_eq {S : Slot} {flash : ℤ → UInt8} {i : ℕ} {q : UploadReq}
    (h : CarriesChunk S flash i q) :
    q.data.take (S.size - chunkSize * i) =
      ((S.contents flash).drop (chunkSize * i)).take chunkSize := by
  rw [h.data, ← S.chunk_eq]
  push_cast
  rfl

/-- **One request more.**  The server has the `sha` of the client. -/
theorem Stored.handle {S : Slot} {flash : ℤ → UInt8} {kept : List UInt8} {i : ℕ} {sv : Server}
    {q : UploadReq} (h : Stored S flash kept i sv.bytes) (hsha : sv.sha = some (ascii "12345"))
    (hq : CarriesChunk S flash i q) (hle : chunkSize * i ≤ S.size) :
    Stored S flash kept (i + 1) (sv.handle q).bytes ∧
      (sv.handle q).sha = some (ascii "12345") := by
  have hrestart : sv.restart q = sv := by
    rw [Server.restart, if_neg]
    rintro ⟨hoff, hne⟩
    have hi : i = 0 := by
      rw [hq.off] at hoff
      simpa [chunkSize] using hoff
    rw [hq.sha, hsha, if_pos hi] at hne
    exact hne rfl
  have hbytes : (sv.handle q).bytes =
      if chunkSize * i = sv.bytes.length then sv.bytes ++ q.data else sv.bytes := by
    rw [Server.handle, hrestart, hq.off]
    split_ifs <;> rfl
  refine ⟨?_, by rw [Server.handle, hrestart]; split_ifs <;> exact hsha⟩
  rw [hbytes]
  have hdata := hq.data_eq
  have hlen := hq.length
  have hsucc : chunkSize * (i + 1) = chunkSize * i + chunkSize := by ring
  have hpos : 0 < chunkSize := by decide
  by_cases hjoin : chunkSize ∣ kept.length ∧ kept.length < chunkSize * i
  · -- the server is up to date, and takes the chunk
    obtain ⟨hcount, htake⟩ := h.joined hjoin.1 hjoin.2
    rw [if_pos hcount.symm]
    refine ⟨fun _ _ => ⟨by rw [List.length_append, hcount, hlen, hsucc], ?_⟩,
      fun hno => absurd ⟨hjoin.1, by omega⟩ hno⟩
    have hdrop : (kept ++ (S.contents flash).drop kept.length).drop (chunkSize * i) =
        (S.contents flash).drop (chunkSize * i) := by
      rw [List.drop_append, List.drop_of_length_le hjoin.2.le, List.nil_append, List.drop_drop]
      congr 1
      omega
    rw [List.take_append, hcount, htake, hdata, hsucc, List.take_add, hdrop]
  · rw [h.refused hjoin]
    by_cases hhere : chunkSize * i = kept.length
    · -- the first chunk that the server takes
      rw [if_pos hhere]
      refine ⟨fun _ _ => ⟨by rw [List.length_append, hlen, hsucc, hhere], ?_⟩,
        fun hno => absurd ⟨⟨i, hhere.symm⟩, by omega⟩ hno⟩
      have hkept : ∀ k, kept.length ≤ k → kept.take k = kept := fun k hk =>
        List.take_of_length_le hk
      rw [hsucc, List.take_append, hkept _ (by omega), ← hhere, hdata, hhere, List.take_append,
        hkept _ (by omega), Nat.add_sub_cancel_left]
    · rw [if_neg hhere]
      refine ⟨fun hdvd hlt => ?_, fun _ => rfl⟩
      obtain ⟨k, hk⟩ := hdvd
      rw [hk] at hlt hhere hjoin
      have hki : k < i + 1 := Nat.lt_of_mul_lt_mul_left hlt
      have hik : ¬ k < i := fun hlt => hjoin ⟨⟨k, rfl⟩, Nat.mul_lt_mul_of_pos_left hlt hpos⟩
      exact absurd (by rw [show k = i by omega]) hhere

/-! ### What the client does with an answer -/

theorem length_le_text {s : List UInt8} {ys : List Item} {b : List UInt8}
    (h : Encodes (.text s :: ys) b) :
    ∃ c, Encodes ys c ∧ b.length ≤ 9 + s.length + c.length := by
  obtain ⟨w, c, -, hc, rfl⟩ := h.text_inv
  have := w.bytes_le
  refine ⟨c, hc, ?_⟩
  simp only [List.length_append, length_head]
  omega

theorem length_le_int {v : ℤ} {ys : List Item} {b : List UInt8} (h : Encodes (.int v :: ys) b) :
    ∃ c, Encodes ys c ∧ b.length ≤ 9 + c.length := by
  obtain ⟨w, c, -, hc, rfl⟩ := h.int_inv
  have := w.bytes_le
  refine ⟨c, hc, ?_⟩
  simp only [List.length_append, length_head]
  omega

/-- However it is encoded, an answer fits the buffer. -/
theorem Answers.fits {n : ℕ} {r : Response} (h : Answers n r) : r.Fits := by
  obtain ⟨k, rest, ⟨hd, b, hhd, hb, hpayload⟩, hcloses⟩ := (encodes_map_iff (by simp)).1 h.2
  have hhead : hd.length ≤ 9 ∧ rest.length ≤ 1 := by
    cases k with
    | none =>
      obtain rfl : hd = [indefByte 5] := hhd
      obtain rfl : rest = [indefByte 7] := hcloses
      simp
    | some k =>
      obtain ⟨w, -, rfl⟩ := hhd
      have := w.bytes_le
      rw [hcloses.2, length_head]
      exact ⟨by omega, by simp⟩
  obtain ⟨b₁, hb₁, hlen₁⟩ := length_le_text hb
  obtain ⟨b₂, hb₂, hlen₂⟩ := length_le_int hb₁
  obtain ⟨b₃, hb₃, hlen₃⟩ := length_le_text hb₂
  obtain ⟨b₄, hb₄, hlen₄⟩ := length_le_int hb₃
  rw [hb₄.nil_inv] at hlen₄
  have hrc : (ascii "rc").length = 2 := by decide
  have hoff : (ascii "off").length = 3 := by decide
  have hlen := congrArg List.length hpayload
  have hsize := r.size
  rw [payloadOf, List.length_drop, List.length_append, List.length_append] at hlen
  rw [List.length_nil] at hlen₄
  rw [Response.Fits, bufferSize, payloadSize]
  omega

/-- **When the client goes on after an answer.** -/
theorem Answers.gives_eq_zero {n : ℕ} {r : Response} (h : Answers n r) (zd : ZcborDecoder)
    (m : Memory) (ps : Parts r) (s : Statics) :
    totalGives (ps.deliver (smpUploadRspProc zd m) s) = 0 ↔
      m.eqRc (ascii "rc") = true ∨ 2 ^ 31 ≤ n := by
  obtain ⟨hyes, hno⟩ := totalGives_upload zd m h.fits ps s
  have hform : UploadForm m (payloadOf r.bytes) ↔ m.eqRc (ascii "rc") = false ∧ n < 2 ^ 31 := by
    obtain ⟨k, rest, hopens, hcloses⟩ := (encodes_map_iff (by simp)).1 h.2
    constructor
    · rintro ⟨k', key, key', v, rest', hopens', -, -, hm, -, hv⟩
      obtain ⟨-, hitems, -⟩ := hopens.unique hopens' rfl
      simp only [List.cons.injEq, Item.text.injEq] at hitems
      obtain ⟨rfl, -, -, hint, -⟩ := hitems
      obtain rfl := Item.int_injective hint
      have := hv.2
      exact ⟨hm, by omega⟩
    · rintro ⟨hm, hn⟩
      exact ⟨k, _, _, n, rest, hopens, two_le_of_closes hcloses, rfl, hm, rfl, by
        unfold FitsInt32; omega⟩
  constructor
  · intro hzero
    by_contra hgo
    rw [not_or, Bool.not_eq_true, not_le] at hgo
    rw [hyes ⟨h.1, hform.2 hgo⟩] at hzero
    cases hzero
  · intro hblock
    apply hno
    rintro ⟨-, hf⟩
    obtain ⟨hm, hn⟩ := hform.1 hf
    rcases hblock with hrc | hbig
    · rw [hm] at hrc; cases hrc
    · omega

/-! ### A session -/

/-- What the server keeps of an unfinished upload when the client starts: all of
it, if the `sha` is the one that the client names. -/
def keptBytes : Option Unfinished → List UInt8
  | none => []
  | some u => if u.sha = ascii "12345" then u.bytes else []

/-- The server as it is when the first request has told it the `sha`. -/
def Server.keeping (u : Option Unfinished) : Server := ⟨some (ascii "12345"), keptBytes u⟩

theorem length_keptBytes (u : Option Unfinished) : (keptBytes u).length < 2 ^ 64 := by
  unfold keptBytes
  split
  · norm_num
  · split_ifs
    · exact Unfinished.count _
    · norm_num

theorem Server.handle_first {S : Slot} {flash : ℤ → UInt8} {q : UploadReq}
    (hq : CarriesChunk S flash 0 q) (u : Option Unfinished) :
    (Server.holding u).handle q = (Server.keeping u).handle q := by
  have hoff : q.off = 0 := by rw [hq.off, Nat.mul_zero]
  have hsha : q.sha = some (ascii "12345") := by rw [hq.sha, if_pos rfl]
  have hkeep : (Server.holding u).restart q = Server.keeping u ∧
      (Server.keeping u).restart q = Server.keeping u := by
    constructor
    · cases u with
      | none => simp [Server.restart, Server.holding, Server.keeping, keptBytes, hoff, hsha]
      | some u =>
        obtain ⟨sha, bytes, _⟩ := u
        by_cases hs : sha = ascii "12345"
        · simp [Server.restart, Server.holding, Server.keeping, keptBytes, hsha, hs]
        · simp [Server.restart, Server.holding, Server.keeping, keptBytes, hoff, hsha, hs,
            Ne.symm hs]
    · simp [Server.restart, Server.keeping, hsha]
  rw [Server.handle, Server.handle, hkeep.1, hkeep.2]

section Session

variable (ze : ZcborEncoder) (zd : ZcborDecoder) (m : Memory) (peer : Peer) {S : Slot}
  (flash : ℤ → UInt8)

/-- The last round. -/
theorem sessionFrom_last {kept : List UInt8} {i : ℕ} {v : Locals} {sv : Server} (fuel : ℕ)
    (s : Statics) (hv : AtChunk S i v) (hlast : S.size < chunkSize * (i + 1))
    (hsha : sv.sha = some (ascii "12345")) (hsv : Stored S flash kept i sv.bytes) :
    ∃ final, sessionFrom ze zd m peer S flash (fuel + 1) i v sv s = some final ∧
      Stored S flash kept (i + 1) final.bytes := by
  obtain ⟨c, q, v', hround, hq, hcarry, hcomplete, -⟩ := round_spec ze flash hv
  refine ⟨sv.handle q, ?_, (hsv.handle hsha hcarry hv.le).1⟩
  simp only [sessionFrom, hround, hq, hcomplete hlast, if_true]

/-- **A round that is not the last**, after which the client goes on or is left
waiting. -/
theorem sessionFrom_more {kept : List UInt8} {i : ℕ} {v : Locals} {sv : Server} (fuel : ℕ)
    (s : Statics) (hv : AtChunk S i v) (hmore : chunkSize * (i + 1) ≤ S.size)
    (hsha : sv.sha = some (ascii "12345")) (hsv : Stored S flash kept i sv.bytes)
    (hkept : kept.length < 2 ^ 64) :
    ∃ v' sv' s', AtChunk S (i + 1) v' ∧ sv'.sha = some (ascii "12345") ∧
      Stored S flash kept (i + 1) sv'.bytes ∧
      sessionFrom ze zd m peer S flash (fuel + 1) i v sv s =
        if m.eqRc (ascii "rc") = true ∨ 2 ^ 31 ≤ sv'.bytes.length then none
        else sessionFrom ze zd m peer S flash fuel (i + 1) v' sv' s' := by
  obtain ⟨c, q, v', hround, hq, hcarry, -, hnext⟩ := round_spec ze flash hv
  obtain ⟨hstored, hsha'⟩ := hsv.handle hsha hcarry hv.le
  have hcount : (sv.handle q).bytes.length < 2 ^ 64 := by
    have := S.size_lt
    by_cases hj : chunkSize ∣ kept.length ∧ kept.length < chunkSize * (i + 1)
    · have := (hstored.joined hj.1 hj.2).1
      omega
    · rw [hstored.refused hj]
      exact hkept
  refine ⟨v', sv.handle q, staticsAfter ((peer.parts i (sv.handle q).bytes.length).deliver
    (smpUploadRspProc zd m) s) s, hnext hmore, hsha', hstored, ?_⟩
  simp only [sessionFrom, hround, hq, (hnext hmore).complete, Bool.false_eq_true, if_false,
    (peer.answers i _ hcount).gives_eq_zero]

/-- **A session in which the client is never left waiting.** -/
theorem sessionFrom_done {kept : List UInt8} (hm : m.eqRc (ascii "rc") = false)
    (hkept : kept.length < 2 ^ 31) (fuel : ℕ) {i : ℕ} {v : Locals} {sv : Server} (s : Statics)
    (hv : AtChunk S i v) (hfuel : S.size - chunkSize * i < fuel)
    (hsha : sv.sha = some (ascii "12345")) (hsv : Stored S flash kept i sv.bytes) :
    ∃ final, sessionFrom ze zd m peer S flash fuel i v sv s = some final ∧
      Stored S flash kept (S.size / chunkSize + 1) final.bytes := by
  induction fuel generalizing i v sv s with
  | zero => omega
  | succ fuel ih =>
    have hle := hv.le
    have hsucc : chunkSize * (i + 1) = chunkSize * i + chunkSize := by ring
    have hpos : 0 < chunkSize := by decide
    by_cases hlast : S.size < chunkSize * (i + 1)
    · have hi : S.size / chunkSize = i := by
        apply Nat.div_eq_of_lt_le
        · rw [Nat.mul_comm]; exact hle
        · rw [Nat.mul_comm]; exact hlast
      rw [hi]
      exact sessionFrom_last ze zd m peer flash fuel s hv hlast hsha hsv
    · rw [not_lt] at hlast
      obtain ⟨v', sv', s', hv', hsha', hsv', hrun⟩ := sessionFrom_more ze zd m peer flash fuel s hv
        hlast hsha hsv (hkept.trans (by norm_num))
      have hcount : sv'.bytes.length < 2 ^ 31 := by
        have := S.size_lt
        by_cases hj : chunkSize ∣ kept.length ∧ kept.length < chunkSize * (i + 1)
        · have := (hsv'.joined hj.1 hj.2).1
          omega
        · rw [hsv'.refused hj]
          exact hkept
      rw [hrun, if_neg (by rw [hm]; simpa using hcount)]
      exact ih s' hv' (by omega) hsha' hsv'

/-- **A session in which it is.**  After the first request. -/
theorem sessionFrom_blocked {kept : List UInt8} (hsize : chunkSize ≤ S.size)
    (hblock : m.eqRc (ascii "rc") = true ∨ 2 ^ 31 ≤ kept.length) (fuel : ℕ) {v : Locals}
    {sv : Server} (s : Statics) (hv : AtChunk S 0 v) (hsha : sv.sha = some (ascii "12345"))
    (hsv : Stored S flash kept 0 sv.bytes) (hkept : kept.length < 2 ^ 64) :
    sessionFrom ze zd m peer S flash (fuel + 1) 0 v sv s = none := by
  obtain ⟨v', sv', s', -, -, hsv', hrun⟩ := sessionFrom_more ze zd m peer flash fuel s hv
    (by simpa using hsize) hsha hsv hkept
  have hstill : m.eqRc (ascii "rc") = true ∨ 2 ^ 31 ≤ sv'.bytes.length := by
    rcases hblock with hm | hbig
    · exact .inl hm
    · have hno : ¬ (chunkSize ∣ kept.length ∧ kept.length < chunkSize * (0 + 1)) := by
        have := S.size_lt
        rintro ⟨-, hlt⟩
        omega
      rw [hsv'.refused hno]
      exact .inr hbig
  rw [hrun, if_pos hstill]

/-- The first request tells the server the `sha`. -/
theorem sessionFrom_keeping (fuel : ℕ) {v : Locals} (s : Statics) (hv : AtChunk S 0 v)
    (u : Option Unfinished) :
    sessionFrom ze zd m peer S flash fuel 0 v (.holding u) s =
      sessionFrom ze zd m peer S flash fuel 0 v (.keeping u) s := by
  cases fuel with
  | zero => rfl
  | succ fuel =>
    obtain ⟨c, q, v', hround, hq, hcarry, -⟩ := round_spec ze flash hv
    simp only [sessionFrom, hround, hq]
    rw [Server.handle_first hcarry u]

end Session

/-- The client is left waiting for the semaphore: there is more than one chunk,
and no answer lets it go on. -/
def LeftWaiting (m : Memory) (S : Slot) (kept : List UInt8) : Prop :=
  chunkSize ≤ S.size ∧ (m.eqRc (ascii "rc") = true ∨ 2 ^ 31 ≤ kept.length)

/-- **The outcome of a session.** -/
theorem session_spec (ze : ZcborEncoder) (zd : ZcborDecoder) (m : Memory) (peer : Peer) (S : Slot)
    (flash : ℤ → UInt8) (data : Vector UInt8 (chunkSize + 1)) (u : Option Unfinished)
    (s : Statics) :
    (LeftWaiting m S (keptBytes u) → session ze zd m peer S flash data u s = none) ∧
      (¬ LeftWaiting m S (keptBytes u) → ∃ final,
        session ze zd m peer S flash data u s = some final ∧
          Stored S flash (keptBytes u) (S.size / chunkSize + 1) final.bytes) := by
  have hv := AtChunk.start S data
  have hsv : Stored S flash (keptBytes u) 0 (Server.keeping u).bytes := .zero S flash _
  rw [session, sessionFrom_keeping ze zd m peer flash _ s hv u]
  constructor
  · rintro ⟨hsize, hblock⟩
    exact sessionFrom_blocked ze zd m peer flash hsize hblock _ s hv rfl hsv (length_keptBytes u)
  · intro hgo
    by_cases hsize : chunkSize ≤ S.size
    · have hfree : ¬ (m.eqRc (ascii "rc") = true ∨ 2 ^ 31 ≤ (keptBytes u).length) :=
        fun hblock => hgo ⟨hsize, hblock⟩
      rw [not_or, Bool.not_eq_true, not_le] at hfree
      exact sessionFrom_done ze zd m peer flash hfree.1 hfree.2 _ s hv (by simp) rfl hsv
    · rw [not_le] at hsize
      rw [Nat.div_eq_of_lt hsize]
      exact sessionFrom_last ze zd m peer flash _ s hv (by simpa using hsize) rfl hsv

/-- The bytes kept are a whole number of chunks, or no fewer than the slot has, and
they agree with the slot. -/
def KeptAgrees (S : Slot) (flash : ℤ → UInt8) (kept : List UInt8) : Prop :=
  (chunkSize ∣ kept.length ∨ S.size ≤ kept.length) ∧
    kept.take S.size = (S.contents flash).take kept.length

/-- What is stored in the end is the slot when what was kept agrees with it. -/
theorem Stored.eq_contents_iff {S : Slot} {flash : ℤ → UInt8} {kept bytes : List UInt8}
    (h : Stored S flash kept (S.size / chunkSize + 1) bytes) :
    bytes.take S.size = S.contents flash ↔ KeptAgrees S flash kept := by
  have hlen := S.length_contents flash
  have hdiv := Nat.div_add_mod S.size chunkSize
  have hmod := Nat.mod_lt S.size (show 0 < chunkSize by decide)
  have hsucc : chunkSize * (S.size / chunkSize + 1) =
      chunkSize * (S.size / chunkSize) + chunkSize := by ring
  by_cases hj : chunkSize ∣ kept.length ∧ kept.length < chunkSize * (S.size / chunkSize + 1)
  · have hle : kept.length ≤ S.size := by
      obtain ⟨⟨k, hk⟩, hlt⟩ := hj
      rw [hk] at hlt ⊢
      have hki : k ≤ S.size / chunkSize := Nat.lt_succ_iff.1 (Nat.lt_of_mul_lt_mul_left hlt)
      have := Nat.mul_le_mul_left chunkSize hki
      omega
    have hwhole : (kept ++ (S.contents flash).drop kept.length).length ≤
        chunkSize * (S.size / chunkSize + 1) := by
      rw [List.length_append, List.length_drop, hlen]
      omega
    rw [(h.joined hj.1 hj.2).2, List.take_of_length_le hwhole, KeptAgrees,
      List.take_of_length_le hle]
    constructor
    · intro heq
      refine ⟨.inl hj.1, ?_⟩
      have htake := congrArg (List.take kept.length) heq
      rwa [List.take_left' rfl] at htake
    · rintro ⟨-, heq⟩
      nth_rewrite 1 [heq]
      exact List.take_append_drop _ _
  · rw [h.refused hj, KeptAgrees]
    have hno : S.size ≤ kept.length → (S.contents flash).take kept.length = S.contents flash :=
      fun hle => List.take_of_length_le (by omega)
    constructor
    · intro heq
      have hle : S.size ≤ kept.length := by
        have hl := congrArg List.length heq
        rw [List.length_take, hlen] at hl
        omega
      exact ⟨.inr hle, by rw [heq, hno hle]⟩
    · rintro ⟨hdvd | hle, heq⟩
      · have : ¬ kept.length < chunkSize * (S.size / chunkSize + 1) := fun hlt => hj ⟨hdvd, hlt⟩
        rw [heq, hno (by omega)]
      · rw [heq, hno hle]

/-- **When a session leaves the slot on the server.**  For every slot, every
unfinished upload and every server. -/
theorem stored_eq_slot_iff (ze : ZcborEncoder) (zd : ZcborDecoder) (m : Memory) (peer : Peer)
    (S : Slot) (flash : ℤ → UInt8) (data : Vector UInt8 (chunkSize + 1)) (u : Option Unfinished)
    (s : Statics) :
    (∀ final, session ze zd m peer S flash data u s = some final →
        final.bytes.take S.size = S.contents flash) ↔
      LeftWaiting m S (keptBytes u) ∨ KeptAgrees S flash (keptBytes u) := by
  obtain ⟨hnone, hsome⟩ := session_spec ze zd m peer S flash data u s
  by_cases hwait : LeftWaiting m S (keptBytes u)
  · rw [hnone hwait]
    simp [hwait]
  · obtain ⟨final, hrun, hstored⟩ := hsome hwait
    rw [hrun, or_iff_right hwait, ← hstored.eq_contents_iff]
    simp

/-- The answer with the payload `{_ "rc": 0, "off": n}`. -/
def plainPayload (n : ℕ) : List UInt8 :=
  indefByte 5 :: (putString 3 (ascii "rc") ++ (putUint 0 ++ (putString 3 (ascii "off") ++
    (putUint n ++ []))) ++ [indefByte 7])

theorem length_plainPayload (n : ℕ) : (plainPayload n).length < 65536 := by
  have h₁ := length_putString_le 3 (ascii "rc")
  have h₂ := length_putString_le 3 (ascii "off")
  have h₃ := length_putUint_le 0
  have h₄ := length_putUint_le n
  have hrc : (ascii "rc").length = 2 := by decide
  have hoff : (ascii "off").length = 3 := by decide
  simp only [plainPayload, List.length_cons, List.length_append, List.length_nil]
  omega

/-- A server that answers so, each time in one part. -/
def plainPeer : Peer where
  answer _ n := ⟨frame 3 1 1 (plainPayload n),
    by rw [length_frame, hdrLen_frame 3 1 1 (length_plainPayload n)]⟩
  parts _ n := .single _
  answers _ n hn := by
    refine ⟨⟨List.mem_singleton.2 rfl, rfl, rfl⟩, ?_⟩
    have hitems : Encodes [.text (ascii "rc"), .int 0, .text (ascii "off"), .int n]
        (putString 3 (ascii "rc") ++ (putUint 0 ++ (putString 3 (ascii "off") ++
          (putUint n ++ [])))) := by
      have hint : Item.int n = .uint n := by simp [Item.int]
      rw [hint]
      exact encodes_putString_text (by decide) (encodes_putUint (by norm_num)
        (encodes_putString_text (by decide) (encodes_putUint hn .nil)))
    exact .mapIndef (n := 2) rfl hitems .nil

/-- One chunk of another image. -/
def otherImage : Unfinished where
  sha := ascii "12345"
  bytes := List.replicate 150 1
  count := by simp

/-- The server has one chunk of another image: the client leaves its loop, and
that chunk is still what the server has first. -/
theorem stored_ne_slot_other_image :
    ∃ final, session documentedEncoder documented .zero plainPeer twoChunkSlot (fun _ => 7)
        (Vector.replicate (chunkSize + 1) 0) (some otherImage) .zero = some final ∧
      final.bytes.take 200 ≠ twoChunkSlot.contents (fun _ => 7) := by
  have hkept : keptBytes (some otherImage) = List.replicate 150 1 := by
    simp [keptBytes, otherImage]
  have hgo : ¬ LeftWaiting .zero twoChunkSlot (keptBytes (some otherImage)) := by
    rintro ⟨-, hm | hbig⟩
    · exact absurd hm (by decide)
    · rw [hkept, List.length_replicate] at hbig
      omega
  obtain ⟨final, hrun, hstored⟩ := (session_spec documentedEncoder documented .zero plainPeer _
    (fun _ => 7) (Vector.replicate (chunkSize + 1) 0) _ .zero).2 hgo
  refine ⟨final, hrun, fun heq => ?_⟩
  obtain ⟨-, hagree⟩ := hstored.eq_contents_iff.1 heq
  rw [hkept] at hagree
  have hhead := congrArg List.head? hagree
  revert hhead
  decide +kernel

end Smp
end NrfSamples
