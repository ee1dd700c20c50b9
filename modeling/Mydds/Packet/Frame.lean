import Mydds.Packet
import Mydds.Util.Length
import Mydds.Lib.PrefixCode

/-!
# Frames, and the decoders that read them

A frame is a length prefix followed by as many bytes as it says.  Frames are a prefix
code (`Frame.isPrefixCode`), and so are pairs of frames.

`Reads enc obj unpack` says what a nested `Unpack` does on every range: in front of a word
of `enc` it returns the length of the word and the object, and where no word is in front it
throws `std::invalid_argument`.  `unpackField_prefixed` is the exact result of one field behind
a length prefix, `unpackField_reads` follows from it, and `Reads.map` and
`TopicPacket.unpack_reads` carry it to the items.

`Reads.unpackLoop_words` and `Reads.unpackLoop_reject` are the two halves for the item
loop: it returns on a string of words, and throws on everything else.  Each word is not
empty and not longer than the range, so the loop never runs out of fuel and the count it
adds to `begin` never steps over `end`.
-/

namespace Mydds

open Lib

/-! ### Iterators -/

theorem advance_append (a b : Bytes) : advance (a ++ b) a.length = .ok b := by
  rw [advance, if_pos (by rw [List.length_append]; omega), List.drop_left]

theorem slice_append (a b c : Bytes) : slice (a ++ (b ++ c)) a.length b.length = .ok b := by
  rw [slice, advance_append]
  show (advance (b ++ c) b.length >>= fun _ => Except.ok ((b ++ c).take b.length)) = _
  rw [advance_append, List.take_left]
  rfl

theorem slice_zero (range : Range) (n : Nat) :
    slice range 0 n = if n ≤ range.length then .ok (range.take n) else .error .outOfRange := by
  rw [slice, advance, if_pos (Nat.zero_le _)]
  show (advance range n >>= fun _ => Except.ok (range.take n)) = _
  rw [advance]
  split
  · rfl
  · rfl

/-! ### Frames -/

theorem IsLengthPrefix.cancel {p q s t : Bytes} (hp : IsLengthPrefix p) (hq : IsLengthPrefix q)
    (e : p ++ s = q ++ t) : p = q ∧ s = t := by
  obtain ⟨more, last, rfl, -, hm, hl⟩ := hp
  obtain ⟨more', last', rfl, -, hm', hl'⟩ := hq
  rw [List.append_assoc, List.append_assoc] at e
  obtain ⟨rfl, rfl, rfl⟩ := run_cancel (P := fun b : UInt8 => 128 ≤ b.toNat) hm
    (Nat.not_le.mpr hl) hm' (Nat.not_le.mpr hl') e
  exact ⟨rfl, rfl⟩

/-- A length prefix and as many bytes as it says. -/
@[ext] structure Frame where
  lengthPrefix : Bytes
  content : Bytes
  isLengthPrefix : IsLengthPrefix lengthPrefix
  length_eq : prefixValue lengthPrefix = content.length

namespace Frame

/-- The frame as it is sent. -/
def bytes (f : Frame) : Bytes := f.lengthPrefix ++ f.content

/-- The frame of a content with the shortest length prefix. -/
def ofContent (content : Bytes) (h : content.length ≤ 268435455) : Frame where
  lengthPrefix := Util.lengthPrefix content.length
  content := content
  isLengthPrefix := Util.isLengthPrefix_lengthPrefix h
  length_eq := Util.prefixValue_lengthPrefix _

def topicName (f : Frame) : TopicName := ⟨UInt32.ofNat f.content.length, f.content⟩

def topicData (f : Frame) : TopicData := ⟨UInt32.ofNat f.content.length, f.content⟩

theorem content_length_le (f : Frame) : f.content.length ≤ 268435455 := by
  rw [← f.length_eq]
  exact f.isLengthPrefix.value_le

theorem length_bytes (f : Frame) : f.bytes.length = f.lengthPrefix.length + f.content.length :=
  List.length_append

theorem length_bytes_le (f : Frame) : f.bytes.length ≤ 268435459 := by
  have h1 := f.isLengthPrefix.length_le
  have h2 := f.content_length_le
  rw [length_bytes]
  omega

/-- **Frames are a prefix code.** -/
theorem isPrefixCode : IsPrefixCode bytes where
  ne_nil f e := by
    have h := f.isLengthPrefix.length_pos
    rw [(List.append_eq_nil_iff.mp e).1] at h
    exact absurd h (by decide)
  cancel {f g s t} e := by
    rw [bytes, bytes, List.append_assoc, List.append_assoc] at e
    obtain ⟨hp, hs⟩ := f.isLengthPrefix.cancel g.isLengthPrefix e
    have hlen : f.content.length = g.content.length := by
      rw [← f.length_eq, ← g.length_eq, hp]
    exact Frame.ext hp (List.append_inj_left hs hlen)

end Frame

/-! ### What a nested decoder does -/

/-- `unpack` reads one word of `enc` off the front of its range, or throws. -/
structure Reads {β ι : Type} (enc : β → Bytes) (obj : β → ι)
    (unpack : Range → Result (UInt32 × ι)) : Prop where
  isPrefixCode : IsPrefixCode enc
  length_lt : ∀ b, (enc b).length < 2 ^ 32
  word : ∀ b s, unpack (enc b ++ s) = .ok (UInt32.ofNat (enc b).length, obj b)
  reject : ∀ r, (∀ b s, r ≠ enc b ++ s) → ∃ what, unpack r = .error (.invalidArgument what)

/-- **A field behind a length prefix**: the bytes the prefix asks for, if there are as many. -/
theorem unpackField_prefixed (who : String) {p : Bytes} (hp : IsLengthPrefix p) (s : Bytes) :
    unpackField who (p ++ s) = if s.length < prefixValue p
      then .error (.invalidArgument (who ++ ": unpack length exceeds byte size."))
      else .ok (UInt32.ofNat (p.length + prefixValue p), UInt32.ofNat (prefixValue p),
        s.take (prefixValue p)) := by
  have hpos := hp.length_pos
  have hlen := hp.length_le
  have hvalue := hp.value_le
  have hne : p ++ s ≠ [] := by
    intro h
    rw [(List.append_eq_nil_iff.mp h).1] at hpos
    exact absurd hpos (by decide)
  -- the sum and its parts fit into 32 bits
  have hsum : (UInt32.ofNat (p.length + prefixValue p)).toNat = p.length + prefixValue p :=
    UInt32.toNat_ofNat_of_lt' (show _ < 2 ^ 32 by omega)
  have hfirst : (UInt32.ofNat p.length).toNat = p.length :=
    UInt32.toNat_ofNat_of_lt' (show _ < 2 ^ 32 by omega)
  have hsecond : (UInt32.ofNat (prefixValue p)).toNat = prefixValue p :=
    UInt32.toNat_ofNat_of_lt' (show _ < 2 ^ 32 by omega)
  have hrange : ((p ++ s).length : Int) < (p.length + prefixValue p : Nat) ↔
      s.length < prefixValue p := by
    rw [List.length_append]
    omega
  rw [unpackField, if_neg hne, Util.unpackLength_prefix_append hp]
  show (if ((p ++ s).length : Int) < (UInt32.ofNat p.length
    + UInt32.ofNat (prefixValue p)).toNat then _ else _) = _
  rw [← UInt32.ofNat_add, hsum]
  by_cases hshort : s.length < prefixValue p
  · rw [if_pos hshort, if_pos (hrange.mpr hshort)]
  · have htake : (s.take (prefixValue p)).length = prefixValue p := by
      rw [List.length_take]
      omega
    have hslice : slice (p ++ s) p.length (prefixValue p) = .ok (s.take (prefixValue p)) := by
      have h := slice_append p (s.take (prefixValue p)) (s.drop (prefixValue p))
      rwa [List.take_append_drop, htake] at h
    rw [if_neg hshort, if_neg (fun h => hshort (hrange.mp h)), hfirst, hsecond, hslice]
    rfl

theorem unpackField_reads (who : String) :
    Reads Frame.bytes (fun f => (UInt32.ofNat f.content.length, f.content)) (unpackField who) where
  isPrefixCode := Frame.isPrefixCode
  length_lt f := Nat.lt_of_le_of_lt f.length_bytes_le (by decide)
  word f s := by
    have hlong : ¬ (f.content ++ s).length < f.content.length := by
      rw [List.length_append]
      omega
    rw [Frame.length_bytes, Frame.bytes, List.append_assoc,
      unpackField_prefixed who f.isLengthPrefix, f.length_eq, if_neg hlong, List.take_left]
  reject r hno := by
    by_cases hnil : r = []
    · exact ⟨_, by rw [unpackField, if_pos hnil]⟩
    by_cases hp : ∃ p s, IsLengthPrefix p ∧ r = p ++ s
    · obtain ⟨p, s, hp, rfl⟩ := hp
      have hshort : s.length < prefixValue p := by
        by_contra hge
        refine hno ⟨p, s.take (prefixValue p), hp, ?_⟩ (s.drop (prefixValue p)) ?_
        · rw [List.length_take]
          omega
        · rw [Frame.bytes, List.append_assoc, List.take_append_drop]
      exact ⟨_, by rw [unpackField_prefixed who hp, if_pos hshort]⟩
    · have herr := Util.unpackLength_error (r := r) (fun p s h e => hp ⟨p, s, h, e⟩)
      exact ⟨_, by rw [unpackField, if_neg hnil, herr]; rfl⟩

namespace Reads

variable {β ι κ : Type} {enc : β → Bytes} {obj : β → ι} {unpack : Range → Result (UInt32 × ι)}

theorem toNat_length (h : Reads enc obj unpack) (b : β) :
    (UInt32.ofNat (enc b).length).toNat = (enc b).length :=
  UInt32.toNat_ofNat_of_lt' (h.length_lt b)

theorem map (h : Reads enc obj unpack) (g : ι → κ) {unpack' : Range → Result (UInt32 × κ)}
    (hu : ∀ r, unpack' r = (unpack r).map (fun x => (x.1, g x.2))) :
    Reads enc (fun b => g (obj b)) unpack' where
  isPrefixCode := h.isPrefixCode
  length_lt := h.length_lt
  word b s := by
    rw [hu, h.word]
    rfl
  reject r hno := by
    obtain ⟨what, hwhat⟩ := h.reject r hno
    exact ⟨what, by rw [hu, hwhat]; rfl⟩

end Reads

theorem TopicName.unpack_reads : Reads Frame.bytes Frame.topicName TopicName.unpack :=
  (unpackField_reads "TopicName").map (fun x => TopicName.mk x.1 x.2) fun r => by
    rw [TopicName.unpack]
    cases unpackField "TopicName" r <;> rfl

theorem TopicData.unpack_reads : Reads Frame.bytes Frame.topicData TopicData.unpack :=
  (unpackField_reads "TopicData").map (fun x => TopicData.mk x.1 x.2) fun r => by
    rw [TopicData.unpack]
    cases unpackField "TopicData" r <;> rfl

/-- A name frame and a data frame, one after the other. -/
def pairBytes (p : Frame × Frame) : Bytes := p.1.bytes ++ p.2.bytes

/-- The item of `PublishData` that two frames make up. -/
def pairPacket (p : Frame × Frame) : TopicPacket := ⟨p.1.topicName, p.2.topicData⟩

theorem TopicPacket.unpack_reads : Reads pairBytes pairPacket TopicPacket.unpack where
  isPrefixCode := Frame.isPrefixCode.prod Frame.isPrefixCode
  length_lt p := by
    have h1 := p.1.length_bytes_le
    have h2 := p.2.length_bytes_le
    rw [pairBytes, List.length_append]
    omega
  word p s := by
    have hsum : UInt32.ofNat p.1.bytes.length + UInt32.ofNat p.2.bytes.length
        = UInt32.ofNat (pairBytes p).length := by
      rw [pairBytes, List.length_append, UInt32.ofNat_add]
    rw [TopicPacket.unpack, pairBytes, List.append_assoc, TopicName.unpack_reads.word]
    show (advance (p.1.bytes ++ (p.2.bytes ++ s)) (UInt32.ofNat p.1.bytes.length).toNat >>= _) = _
    rw [TopicName.unpack_reads.toNat_length, advance_append]
    show (TopicData.unpack (p.2.bytes ++ s) >>= _) = _
    rw [TopicData.unpack_reads.word]
    show Except.ok (UInt32.ofNat p.1.bytes.length + UInt32.ofNat p.2.bytes.length, _) = _
    rw [hsum]
    rfl
  reject r hno := by
    by_cases hname : ∃ (f : Frame) (s : Bytes), r = f.bytes ++ s
    · obtain ⟨f, s, rfl⟩ := hname
      obtain ⟨what, hwhat⟩ := TopicData.unpack_reads.reject s fun g t e =>
        hno (f, g) t (by rw [pairBytes, List.append_assoc, e])
      refine ⟨what, ?_⟩
      rw [TopicPacket.unpack, TopicName.unpack_reads.word]
      show (advance (f.bytes ++ s) (UInt32.ofNat f.bytes.length).toNat >>= _) = _
      rw [TopicName.unpack_reads.toNat_length, advance_append]
      show (TopicData.unpack s >>= _) = _
      rw [hwhat]
      rfl
    · obtain ⟨what, hwhat⟩ := TopicName.unpack_reads.reject r fun f s e => hname ⟨f, s, e⟩
      exact ⟨what, by rw [TopicPacket.unpack, hwhat]; rfl⟩

/-! ### The item loop -/

namespace Reads

variable {β ι : Type} {enc : β → Bytes} {obj : β → ι} {unpack : Range → Result (UInt32 × ι)}

theorem unpackLoop_word (h : Reads enc obj unpack) (fuel : Nat) (b : β) (s : Bytes)
    (data : List ι) (total : UInt32) :
    unpackLoop unpack (fuel + 1) (enc b ++ s) data total
      = unpackLoop unpack fuel s (data ++ [obj b]) (total + UInt32.ofNat (enc b).length) := by
  obtain ⟨c, cs, hc⟩ := List.exists_cons_of_ne_nil (h.isPrefixCode.ne_nil b)
  have hcons : enc b ++ s = c :: (cs ++ s) := by rw [hc, List.cons_append]
  rw [hcons, unpackLoop, ← hcons, h.word]
  show (advance (enc b ++ s) (UInt32.ofNat (enc b).length).toNat >>= _) = _
  rw [h.toNat_length, advance_append]
  rfl

theorem unpackLoop_words (h : Reads enc obj unpack) : ∀ (bs : List β) (fuel : Nat) (data : List ι)
    (total : UInt32), (bs.flatMap enc).length ≤ fuel →
    unpackLoop unpack fuel (bs.flatMap enc) data total
      = .ok (total + UInt32.ofNat (bs.flatMap enc).length, data ++ bs.map obj) := by
  intro bs
  induction bs with
  | nil =>
    intro fuel data total _
    rw [List.flatMap_nil, unpackLoop, List.length_nil, List.map_nil, List.append_nil]
    simp
  | cons b bs ih =>
    intro fuel data total hfuel
    have hb : 0 < (enc b).length := List.length_pos_iff.mpr (h.isPrefixCode.ne_nil b)
    rw [List.flatMap_cons, List.length_append] at hfuel
    obtain ⟨fuel, rfl⟩ : ∃ n, fuel = n + 1 := ⟨fuel - 1, by omega⟩
    rw [List.flatMap_cons, h.unpackLoop_word, ih fuel _ _ (by omega), List.length_append,
      UInt32.ofNat_add, UInt32.add_assoc, List.append_assoc, List.map_cons, List.singleton_append]

theorem unpackLoop_reject (h : Reads enc obj unpack) : ∀ (fuel : Nat) (r : Bytes) (data : List ι)
    (total : UInt32), r.length ≤ fuel → (∀ bs : List β, r ≠ bs.flatMap enc) →
    ∃ what, unpackLoop unpack fuel r data total = .error (.invalidArgument what) := by
  intro fuel
  induction fuel with
  | zero =>
    intro r data total hfuel hno
    exact absurd (List.eq_nil_of_length_eq_zero (Nat.le_zero.mp hfuel)) (hno [])
  | succ fuel ih =>
    intro r data total hfuel hno
    by_cases hword : ∃ b s, r = enc b ++ s
    · obtain ⟨b, s, rfl⟩ := hword
      have hb : 0 < (enc b).length := List.length_pos_iff.mpr (h.isPrefixCode.ne_nil b)
      rw [h.unpackLoop_word]
      refine ih s _ _ (by rw [List.length_append] at hfuel; omega) fun bs e => ?_
      exact hno (b :: bs) (by rw [List.flatMap_cons, ← e])
    · obtain ⟨what, hwhat⟩ := h.reject r fun b s e => hword ⟨b, s, e⟩
      cases r with
      | nil => exact absurd rfl (hno [])
      | cons c cs => exact ⟨what, by rw [unpackLoop, hwhat]; rfl⟩

end Reads

end Mydds
