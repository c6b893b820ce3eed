/-
# Genuine image lists

What `smp_list_rsp_proc` in
`bootloader_samples/client_smp/smp_client_ble/src/main.c` reads, compared with the
image lists of the protocol: one map that begins with the key `images` and a list
of maps, each with the eight names and the values of an image.

`genuineImages_iff`: a payload is a genuine list of one or two images exactly if
it is read as these images, under the key `images`, and ends behind the last one.
-/

import NrfSamples.Smp.ListRun

namespace NrfSamples
namespace Smp

open Cbor Zcbor

/-- The value that a boolean is decoded as. -/
def flagValue (b : Bool) : Value := if b then .simple 21 21 else .simple 20 20

/-- An image as a list has it, with a hash of any length. -/
structure ListedImage where
  slot : ℤ
  version : List UInt8
  hash : List UInt8
  bootable : Bool
  pending : Bool
  confirmed : Bool
  active : Bool
  permanent : Bool
  slot_fits : FitsInt32 slot

/-- Its keys and values. -/
def ListedImage.pairs (im : ListedImage) : List Pair :=
  [(ascii "slot", .int im.slot), (ascii "version", .text im.version), (ascii "hash", .bytes im.hash),
    (ascii "bootable", flagValue im.bootable), (ascii "pending", flagValue im.pending),
    (ascii "confirmed", flagValue im.confirmed), (ascii "active", flagValue im.active),
    (ascii "permanent", flagValue im.permanent)]

/-- The payload is one map whose first key is `images`, with the list of these images. -/
def GenuineImages (ims : List ListedImage) (payload : List UInt8) : Prop :=
  BeginsWith (ascii "images") (ims.map fun im => .map (pairItems im.pairs)) payload

theorem flagValue_item (b : Bool) : (flagValue b).item = .bool b := by
  cases b <;> rfl

def ImageEntry.listed (e : ImageEntry) : ListedImage :=
  ⟨e.slot, e.version, e.hash, e.bootable, e.pending, e.confirmed, e.active, e.permanent,
    e.slot_fits⟩

/-- The entries of an image list are such images. -/
theorem genuineImages_listed (es : List ImageEntry) (payload : List UInt8) :
    GenuineImages (es.map ImageEntry.listed) payload ↔ ImageList es payload := by
  have hitems : ∀ e : ImageEntry, pairItems e.listed.pairs = e.items := by
    intro e
    simp only [pairItems, ListedImage.pairs, ImageEntry.listed, List.flatMap_cons,
      List.flatMap_nil, flagValue_item]
    rfl
  have hmaps : ((es.map ImageEntry.listed).map fun im => Item.map (pairItems im.pairs)) =
      es.map fun e => .map e.items := by
    rw [List.map_map]
    exact List.map_congr_left fun e _ => congrArg Item.map (hitems e)
  rw [GenuineImages, hmaps]
  rfl

theorem flag_accepts (msg : String) (b : Bool) : (Kind.flag msg).Accepts (flagValue b) := by
  cases b <;> trivial

theorem fills_pairs (im : ListedImage) : Fills rows im.pairs :=
  .cons im.slot_fits (.cons trivial (.cons trivial (.cons (flag_accepts _ _)
    (.cons (flag_accepts _ _) (.cons (flag_accepts _ _) (.cons (flag_accepts _ _)
    (.cons (flag_accepts _ _) .nil)))))))

/-- **The map of an image is opened, its rows are read, and it is closed.** -/
theorem reads_image_iff {im : ListedImage} {c c' : Cursor} (hroom : 0 < c.room) :
    Reads [.map (pairItems im.pairs)] c c' ↔ ∃ c₁ c₂, c.mapStart = some ((), c₁) ∧
      readRows rows c₁ = some (im.pairs, c₂) ∧ c₂.finish = some ((), c') := by
  rw [reads_map_iff hroom (by simp [pairItems, ListedImage.pairs])]
  simp only [readRows_eq_some, fills_pairs, true_and]

/-- A flag is a boolean. -/
def Value.Boolean : Value → Prop
  | .simple a n => (a = 21 ∧ n = 21) ∨ (a = 20 ∧ n = 20)
  | _ => True

/-- The keys are the names of the rows, and the flags are booleans. -/
structure Named (kvs : List Pair) : Prop where
  keys : kvs.map Prod.fst = rows.map fun row => ascii row.name
  flags : ∀ p ∈ kvs, p.2.Boolean

theorem exists_int {msg : String} {v : Value} (h : (Kind.int32 msg).Accepts v) :
    ∃ x, v = .int x ∧ FitsInt32 x := by
  cases v with
  | int x => exact ⟨x, rfl, h⟩
  | _ => exact h.elim

theorem exists_text {array : String} {size : ℕ} {msg : String} {v : Value}
    (h : (Kind.text array size msg).Accepts v) : ∃ s, v = .text s := by
  cases v with
  | text s => exact ⟨s, rfl⟩
  | _ => exact h.elim

theorem exists_bytes {v : Value} (h : Kind.hash.Accepts v) : ∃ s, v = .bytes s := by
  cases v with
  | bytes s => exact ⟨s, rfl⟩
  | _ => exact h.elim

theorem exists_flag {msg : String} {v : Value} (h : (Kind.flag msg).Accepts v) (hv : v.Boolean) :
    ∃ b, v = flagValue b := by
  cases v with
  | simple a n =>
    rcases hv with ⟨rfl, rfl⟩ | ⟨rfl, rfl⟩
    · exact ⟨true, rfl⟩
    · exact ⟨false, rfl⟩
  | _ => exact h.elim

/-- **Rows with the names and the booleans of an image are an image.** -/
theorem named_iff {kvs : List Pair} (hfills : Fills rows kvs) :
    Named kvs ↔ ∃ im : ListedImage, kvs = im.pairs := by
  constructor
  · rintro ⟨hkeys, hflags⟩
    simp only [Fills, rows, slotRow, versionRow, hashRow, flagRows, List.forall₂_cons_left_iff,
      List.forall₂_nil_left_iff] at hfills
    obtain ⟨⟨k₁, v₁⟩, _, h₁, ⟨⟨k₂, v₂⟩, _, h₂, ⟨⟨k₃, v₃⟩, _, h₃, ⟨⟨k₄, v₄⟩, _, h₄, ⟨⟨k₅, v₅⟩, _, h₅,
      ⟨⟨k₆, v₆⟩, _, h₆, ⟨⟨k₇, v₇⟩, _, h₇, ⟨⟨k₈, v₈⟩, _, h₈, rfl, rfl⟩, rfl⟩, rfl⟩, rfl⟩, rfl⟩,
      rfl⟩, rfl⟩, rfl⟩ := hfills
    simp only [rows, slotRow, versionRow, hashRow, flagRows, List.map_cons, List.map_nil,
      List.cons.injEq, and_true] at hkeys
    obtain ⟨rfl, rfl, rfl, rfl, rfl, rfl, rfl, rfl⟩ := hkeys
    obtain ⟨slot, rfl, hslot⟩ := exists_int h₁
    obtain ⟨version, rfl⟩ := exists_text h₂
    obtain ⟨hash, rfl⟩ := exists_bytes h₃
    obtain ⟨bootable, rfl⟩ := exists_flag h₄ (hflags (_, v₄) (by simp))
    obtain ⟨pending, rfl⟩ := exists_flag h₅ (hflags (_, v₅) (by simp))
    obtain ⟨confirmed, rfl⟩ := exists_flag h₆ (hflags (_, v₆) (by simp))
    obtain ⟨active, rfl⟩ := exists_flag h₇ (hflags (_, v₇) (by simp))
    obtain ⟨permanent, rfl⟩ := exists_flag h₈ (hflags (_, v₈) (by simp))
    exact ⟨⟨slot, version, hash, bootable, pending, confirmed, active, permanent, hslot⟩, rfl⟩
  · rintro ⟨im, rfl⟩
    have hboolean : ∀ b, (flagValue b).Boolean := by
      intro b
      cases b
      · exact .inr ⟨rfl, rfl⟩
      · exact .inl ⟨rfl, rfl⟩
    refine ⟨rfl, ?_⟩
    simp only [ListedImage.pairs, List.forall_mem_cons]
    exact ⟨trivial, trivial, trivial, hboolean _, hboolean _, hboolean _, hboolean _, hboolean _,
      by simp⟩

/-! ### Strict readings -/

/-- The last entry ends, and then the list, the map around it and the payload. -/
def ListReading.Ends (l : ListReading) : Prop := ∃ c, l.last.finish = some ((), c) ∧ EndsAfter c

/-- What is read has the names and the booleans of a genuine list, and ends as one
does. -/
structure ListReading.Strict (l : ListReading) : Prop where
  key : l.key = ascii "images"
  first : Named l.first
  second : ∀ kvs, l.second = some kvs → Named kvs
  ends : l.Ends

/-- **How a payload is read**, call by call. -/
theorem readList_eq_some {payload : List UInt8} {l : ListReading} :
    readList payload = some l ↔ ∃ c c' c₁ c₂, keyAt payload = some (l.key, c) ∧
      c.listStart = some ((), c') ∧ c'.mapStart = some ((), c₁) ∧
      readRows rows c₁ = some (l.first, c₂) ∧
      (nextAt c₂ = none ∧ l.second = none ∧ l.last = c₂ ∨
        ∃ c₃ kvs, nextAt c₂ = some c₃ ∧ readRows rows c₃ = some (kvs, l.last) ∧
          l.second = some kvs) := by
  obtain ⟨key, first, second, last⟩ := l
  constructor
  · intro h
    obtain ⟨⟨key', c⟩, hkey, h⟩ := Option.bind_eq_some_iff.1 h
    obtain ⟨⟨⟨⟩, c'⟩, hlist, h⟩ := Option.bind_eq_some_iff.1 h
    obtain ⟨⟨⟨⟩, c₁⟩, hmap, h⟩ := Option.bind_eq_some_iff.1 h
    obtain ⟨⟨kvs, c₂⟩, hread, h⟩ := Option.bind_eq_some_iff.1 h
    dsimp only at hlist hmap hread h
    cases hnext : nextAt c₂ with
    | none =>
      rw [hnext] at h
      cases h
      exact ⟨c, c', c₁, _, hkey, hlist, hmap, hread, .inl ⟨hnext, rfl, rfl⟩⟩
    | some c₃ =>
      rw [hnext] at h
      obtain ⟨⟨kvs', c₄⟩, hread', h⟩ := Option.map_eq_some_iff.1 h
      cases h
      exact ⟨c, c', c₁, c₂, hkey, hlist, hmap, hread, .inr ⟨c₃, kvs', hnext, hread', rfl⟩⟩
  · rintro ⟨c, c', c₁, c₂, hkey, hlist, hmap, hread, h⟩
    dsimp only at hkey hread h
    rw [readList, hkey, Option.bind_some, hlist, Option.bind_some, hmap, Option.bind_some,
      readEntries, hread, Option.bind_some]
    rcases h with ⟨hnext, rfl, rfl⟩ | ⟨c₃, kvs, hnext, hread', rfl⟩
    · simp only [hnext]
    · simp only [hnext, hread', Option.map_some]

/-- No map starts where a list or map ends. -/
theorem mapStart_of_finish {c c' : Cursor} (h : c.finish = some ((), c')) : c.mapStart = none := by
  rw [Option.eq_none_iff_forall_ne_some]
  rintro ⟨⟨⟩, d⟩ hstart
  obtain ⟨n, b, hb, hrest, -, -, k, hcount, -⟩ := (start_eq_some (by norm_num)).1 hstart
  unfold Cursor.finish at h
  split at h
  · rename_i helems
    rw [hcount] at helems
    cases k <;> cases helems
  · split_ifs at h with hbreak
    obtain ⟨t, ht⟩ := List.head?_eq_some_iff.1 hbreak
    cases n with
    | none =>
      obtain rfl : b = [indefByte 5] := hb
      exact absurd (List.cons.inj (ht.symm.trans hrest)).1 (by decide)
    | some n =>
      obtain ⟨w, hw, rfl⟩ := hb
      have hread := readHead_head (show 5 < 8 by norm_num) hw d.rest
      rw [← hrest, ht, readHead_indefByte (by norm_num)] at hread
      cases hread
  · cases h

/-- **Where a second entry is read**: behind the end of the first one. -/
theorem nextAt_eq_some {c c' : Cursor} :
    nextAt c = some c' ↔ ∃ d, c.finish = some ((), d) ∧ d.mapStart = some ((), c') := by
  constructor
  · intro h
    obtain ⟨⟨⟨⟩, d⟩, hfinish, h⟩ := Option.bind_eq_some_iff.1 h
    obtain ⟨⟨⟨⟩, e⟩, hstart, rfl⟩ := Option.map_eq_some_iff.1 h
    exact ⟨d, hfinish, hstart⟩
  · rintro ⟨d, hfinish, hstart⟩
    rw [nextAt, hfinish, Option.bind_some, hstart]
    rfl

/-- The room left in the list. -/
theorem room_list {payload key : List UInt8} {c c' : Cursor} (hkey : keyAt payload = some (key, c))
    (hlist : c.listStart = some ((), c')) : c'.room = 6 := by
  have hroom := start_room (by norm_num) hlist
  rw [room_keyAt hkey] at hroom
  omega

section Images

variable {ims : List ListedImage} {payload : List UInt8} (hlen : ims.length = 1 ∨ ims.length = 2)

include hlen

/-- A list of one or two images is read as that. -/
theorem readList_of_reads {c c' d : Cursor} (hkey : keyAt payload = some (ascii "images", c))
    (hlist : c.listStart = some ((), c'))
    (hreads : Reads (ims.map fun im => .map (pairItems im.pairs)) c' d) (hno : d.mapStart = none) :
    ∃ l, readList payload = some l ∧ l.key = ascii "images" ∧
      l.first :: l.second.toList = ims.map ListedImage.pairs ∧ l.last.finish = some ((), d) := by
  have hroom : 0 < c'.room := by
    rw [room_list hkey hlist]
    norm_num
  rcases hlen with hlen | hlen
  · obtain ⟨im, rfl⟩ := List.length_eq_one_iff.1 hlen
    obtain ⟨c₁, c₂, hmap, hread, hfinish⟩ := (reads_image_iff hroom).1 hreads
    have hnext : nextAt c₂ = none := by
      rw [nextAt, hfinish, Option.bind_some, hno]
      rfl
    have hl : readList payload = some ⟨ascii "images", im.pairs, none, c₂⟩ :=
      readList_eq_some.2 ⟨c, c', c₁, c₂, hkey, hlist, hmap, hread, .inl ⟨hnext, rfl, rfl⟩⟩
    exact ⟨_, hl, rfl, rfl, hfinish⟩
  · obtain ⟨im, im', rfl⟩ := List.length_eq_two.1 hlen
    obtain ⟨e, hreads, hreads'⟩ := reads_cons_iff.1 hreads
    obtain ⟨c₁, c₂, hmap, hread, hfinish⟩ := (reads_image_iff hroom).1 hreads
    obtain ⟨c₃, c₄, hmap', hread', hfinish'⟩ :=
      (reads_image_iff (by rwa [← hreads.room])).1 hreads'
    have hl : readList payload = some ⟨ascii "images", im.pairs, some im'.pairs, c₄⟩ :=
      readList_eq_some.2 ⟨c, c', c₁, c₂, hkey, hlist, hmap, hread,
        .inr ⟨c₃, _, nextAt_eq_some.2 ⟨e, hfinish, hmap'⟩, hread', rfl⟩⟩
    exact ⟨_, hl, rfl, rfl, hfinish'⟩

/-- What is read as one or two images is a list of them. -/
theorem reads_of_readList {l : ListReading} {d : Cursor} (hl : readList payload = some l)
    (hpairs : l.first :: l.second.toList = ims.map ListedImage.pairs)
    (hlast : l.last.finish = some ((), d)) :
    ∃ c c', keyAt payload = some (l.key, c) ∧ c.listStart = some ((), c') ∧
      Reads (ims.map fun im => .map (pairItems im.pairs)) c' d := by
  obtain ⟨c, c', c₁, c₂, hkey, hlist, hmap, hread, hsecond⟩ := readList_eq_some.1 hl
  have hroom : 0 < c'.room := by
    rw [room_list hkey hlist]
    norm_num
  refine ⟨c, c', hkey, hlist, ?_⟩
  rcases hlen with hlen | hlen
  · obtain ⟨im, rfl⟩ := List.length_eq_one_iff.1 hlen
    rcases hsecond with ⟨-, hsecond, rfl⟩ | ⟨c₃, kvs, -, -, hsecond⟩
    · rw [hsecond] at hpairs
      rw [(List.cons.inj hpairs).1] at hread
      exact (reads_image_iff hroom).2 ⟨c₁, _, hmap, hread, hlast⟩
    · rw [hsecond] at hpairs
      cases (List.cons.inj hpairs).2
  · obtain ⟨im, im', rfl⟩ := List.length_eq_two.1 hlen
    rcases hsecond with ⟨-, hsecond, -⟩ | ⟨c₃, kvs, hnext, hread', hsecond⟩
    · rw [hsecond] at hpairs
      cases (List.cons.inj hpairs).2
    · rw [hsecond] at hpairs
      obtain ⟨hfirst, hrest⟩ := List.cons.inj hpairs
      rw [hfirst] at hread
      rw [(List.cons.inj hrest).1] at hread'
      obtain ⟨e, hfinish, hmap'⟩ := nextAt_eq_some.1 hnext
      have hreads := (reads_image_iff hroom).2 ⟨c₁, c₂, hmap, hread, hfinish⟩
      exact reads_cons_iff.2 ⟨e, hreads, (reads_image_iff (by rwa [← hreads.room])).2
        ⟨c₃, _, hmap', hread', hlast⟩⟩

/-- **A genuine list of one or two images is read as that**, and only such a list. -/
theorem genuineImages_iff :
    GenuineImages ims payload ↔ ∃ l, readList payload = some l ∧ l.key = ascii "images" ∧
      l.first :: l.second.toList = ims.map ListedImage.pairs ∧ l.Ends := by
  rw [GenuineImages, beginsWith_iff]
  constructor
  · rintro ⟨c, c', d, hkey, hlist, hreads, hends⟩
    have hno : d.mapStart = none := by
      obtain ⟨e, -, -, -, hfinish, -⟩ := hends
      exact mapStart_of_finish hfinish
    obtain ⟨l, hl, hlkey, hpairs, hlast⟩ := readList_of_reads hlen hkey hlist hreads hno
    exact ⟨l, hl, hlkey, hpairs, d, hlast, hends⟩
  · rintro ⟨l, hl, hlkey, hpairs, d, hlast, hends⟩
    obtain ⟨c, c', hkey, hlist, hreads⟩ := reads_of_readList hlen hl hpairs hlast
    rw [hlkey] at hkey
    exact ⟨c, c', d, hkey, hlist, hreads, hends⟩

end Images

/-- What is read is strict exactly if it is one or two images, and ends. -/
theorem strict_iff {payload : List UInt8} {l : ListReading} (hl : readList payload = some l) :
    l.Strict ↔ ∃ ims : List ListedImage, (ims.length = 1 ∨ ims.length = 2) ∧
      l.key = ascii "images" ∧ l.first :: l.second.toList = ims.map ListedImage.pairs ∧
      l.Ends := by
  obtain ⟨c, c', c₁, c₂, -, -, -, hread, hsecond⟩ := readList_eq_some.1 hl
  have hfirst := named_iff (readRows_eq_some.1 hread).1
  rcases hsecond with ⟨-, hnone, -⟩ | ⟨c₃, kvs, -, hread', hsome⟩
  · constructor
    · rintro ⟨hkey, hnamed, -, hends⟩
      obtain ⟨im, him⟩ := hfirst.1 hnamed
      exact ⟨[im], .inl rfl, hkey, by rw [hnone, him]; rfl, hends⟩
    · rintro ⟨ims, -, hkey, hpairs, hends⟩
      obtain ⟨im, _, -, him, -⟩ := List.map_eq_cons_iff.1 hpairs.symm
      exact ⟨hkey, hfirst.2 ⟨im, him.symm⟩, by simp [hnone], hends⟩
  · have hlater := named_iff (readRows_eq_some.1 hread').1
    constructor
    · rintro ⟨hkey, hnamed, hnamed', hends⟩
      obtain ⟨im, him⟩ := hfirst.1 hnamed
      obtain ⟨im', him'⟩ := hlater.1 (hnamed' kvs hsome)
      exact ⟨[im, im'], .inr rfl, hkey, by rw [hsome, him, him']; rfl, hends⟩
    · rintro ⟨ims, -, hkey, hpairs, hends⟩
      rw [hsome] at hpairs
      obtain ⟨im, _, rfl, him, hrest⟩ := List.map_eq_cons_iff.1 hpairs.symm
      obtain ⟨im', _, rfl, him', -⟩ := List.map_eq_cons_iff.1 hrest
      refine ⟨hkey, hfirst.2 ⟨im, him.symm⟩, ?_, hends⟩
      intro kvs' hkvs'
      obtain rfl := Option.some.inj (hsome.symm.trans hkvs')
      exact hlater.2 ⟨im', him'.symm⟩

end Smp
end NrfSamples
