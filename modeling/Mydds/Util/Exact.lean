import Mydds.Util.Length
import Mydds.Lib.Run
import Mathlib.Algebra.BigOperators.Ring.Finset
import Mathlib.Tactic.Ring

/-!
# The loops of `unpack_length` and `pack_length` are exact

`Round` is one round of the decoder's loop that goes on to the next byte, so the runs of it are
the heads that the loop gets to (`Round.result_eq`).  At each of them `length` is less than
`128 ^ k` and `multiplier` is `128 ^ k`, where `k` is the count of the bytes before: `AtHead`.
No operation of the round that follows wraps, and the comparison with `MAX_LENGTH` lets it pass,
`ExactRound`.

`unpackLength_exact` adds what the loop returns: the decoder stops at the first byte with a clear
high bit, if it is one of the first four, and gives the sum of the digits up to there.
`packLength_shortest` says that the encoder writes the shortest of all byte strings that are
decoded to its argument.
-/

namespace Mydds.Util

open Lib

/-! ### Rounds -/

/-- The variables of the loop of `unpack_length`; `it` is the rest of the range. -/
structure LoopState where
  it : Range
  length : UInt32
  multiplier : UInt32
  processedBytes : Nat

namespace LoopState

def start (range : Range) : LoopState := ⟨range, 0, 1, 0⟩

/-- What the loop returns from here on. -/
def result (s : LoopState) : Result (UInt32 × UInt32) :=
  unpackLengthLoop s.it s.length s.multiplier s.processedBytes

end LoopState

/-- A round on a byte that neither returns nor throws. -/
inductive Round : LoopState → UInt8 → LoopState → Prop
  | next {it : Range} {length multiplier : UInt32} {processedBytes : Nat} {encodedByte : UInt8} :
      ¬ length + (encodedByte &&& 127).toUInt32 * multiplier > maxLength →
      ¬ encodedByte &&& 128 = 0 → ¬ processedBytes ≥ maxBytes - 1 →
      Round ⟨encodedByte :: it, length, multiplier, processedBytes⟩ encodedByte
        ⟨it, length + (encodedByte &&& 127).toUInt32 * multiplier, multiplier * 128,
          processedBytes + 1⟩

theorem Round.result_eq {s s' : LoopState} {b : UInt8} (h : Round s b s') :
    s.result = s'.result := by
  cases h with
  | next hmax hmore hround =>
    rw [LoopState.result, unpackLengthLoop, if_neg hmax, if_neg hmore, if_neg hround,
      LoopState.result]

/-- At the head of the loop, with the digits of the bytes before. -/
structure AtHead (s : LoopState) : Prop where
  processed_le : s.processedBytes ≤ 3
  length_lt : s.length.toNat < 128 ^ s.processedBytes
  multiplier_eq : s.multiplier.toNat = 128 ^ s.processedBytes

theorem atHead_start (range : Range) : AtHead (LoopState.start range) :=
  ⟨Nat.zero_le 3, Nat.one_pos, rfl⟩

theorem AtHead.round {s s' : LoopState} {b : UInt8} (hs : AtHead s) (h : Round s b s') :
    AtHead s' := by
  obtain ⟨hle, hlen, hmul⟩ := hs
  cases h with
  | next _ _ hround =>
    obtain ⟨hsum, hlt, -⟩ := length_step b hle hlen hmul
    refine ⟨?_, by rw [hsum]; exact hlt, multiplier_step hle hmul⟩
    have hless : ¬ _ ≥ 3 := hround
    exact Nat.lt_of_not_le hless

/-- The round on this byte is computed exactly: neither the products nor the sum wrap, and the sum
passes the check. -/
structure ExactRound (s : LoopState) (b : UInt8) : Prop where
  product : ((b &&& 127).toUInt32 * s.multiplier).toNat = (b &&& 127).toNat * s.multiplier.toNat
  sum : (s.length + (b &&& 127).toUInt32 * s.multiplier).toNat
    = s.length.toNat + ((b &&& 127).toUInt32 * s.multiplier).toNat
  multiplier : (s.multiplier * 128).toNat = s.multiplier.toNat * 128
  check : ¬ s.length + (b &&& 127).toUInt32 * s.multiplier > maxLength

/-- **No round wraps.** -/
theorem AtHead.exactRound {s : LoopState} (hs : AtHead s) (b : UInt8) : ExactRound s b := by
  obtain ⟨hle, hlen, hmul⟩ := hs
  obtain ⟨hsum, -, hcheck⟩ := length_step b hle hlen hmul
  have hpow : 128 ^ s.processedBytes ≤ 128 ^ 3 := Nat.pow_le_pow_right (by decide) hle
  have hdigit : (b &&& 127).toUInt32.toNat = b.toNat % 128 := toNat_and_127 b
  have hbyte : (b &&& 127).toNat = b.toNat % 128 := by
    rw [← hdigit, UInt8.toNat_toUInt32]
  have hbound : b.toNat % 128 * 128 ^ s.processedBytes ≤ 127 * 128 ^ s.processedBytes :=
    Nat.mul_le_mul_right _ (Nat.le_of_lt_succ (Nat.mod_lt _ (by decide)))
  have hproduct : ((b &&& 127).toUInt32 * s.multiplier).toNat
      = b.toNat % 128 * 128 ^ s.processedBytes := by
    rw [UInt32.toNat_mul, hdigit, hmul]
    omega
  refine ⟨?_, ?_, ?_, hcheck⟩
  · rw [hproduct, hbyte, hmul]
  · rw [hproduct, hsum, Nat.mul_comm]
  · rw [multiplier_step hle hmul, hmul, Nat.pow_succ]

/-! ### The first byte with a clear high bit -/

/-- There is a byte at `j`, and its high bit is clear. -/
def EndsAt (r : Bytes) (j : Nat) : Prop := ∃ b, r[j]? = some b ∧ b.toNat < 128

theorem exists_first_endsAt {r : Bytes} (h : ∃ j < 4, EndsAt r j) :
    ∃ j < 4, EndsAt r j ∧ ∀ i < j, ¬ EndsAt r i := by
  classical
  refine ⟨Nat.find h, (Nat.find_spec h).1, (Nat.find_spec h).2, fun i hi hends => ?_⟩
  exact Nat.find_min h hi ⟨Nat.lt_trans hi (Nat.find_spec h).1, hends⟩

theorem isLengthPrefix_take {r : Bytes} {j : Nat} (hj : j < 4) (hends : EndsAt r j)
    (hfirst : ∀ i < j, ¬ EndsAt r i) :
    IsLengthPrefix (r.take (j + 1)) ∧ (r.take (j + 1)).length = j + 1 := by
  obtain ⟨last, hlast, hl⟩ := hends
  have hlt : j < r.length := (List.getElem?_eq_some_iff.mp hlast).1
  have hlen : (r.take j).length = j := by
    rw [List.length_take]
    omega
  have htake : r.take (j + 1) = r.take j ++ [last] := by
    rw [List.take_add_one, hlast]
    rfl
  refine ⟨⟨r.take j, last, htake, by omega, fun b hb => ?_, hl⟩, ?_⟩
  · obtain ⟨i, hi, hget⟩ := List.mem_take_iff_getElem.mp hb
    have hij : i < j := Nat.lt_of_lt_of_le hi (Nat.min_le_left _ _)
    by_contra hclear
    exact hfirst i hij ⟨b, by rw [← hget]; exact List.getElem?_eq_getElem _, Nat.not_le.mp hclear⟩
  · rw [htake, List.length_append, hlen, List.length_singleton]

theorem exists_endsAt_append {p : Bytes} (hp : IsLengthPrefix p) (s : Bytes) :
    ∃ j < 4, EndsAt (p ++ s) j := by
  obtain ⟨more, last, rfl, hlen, -, hl⟩ := hp
  refine ⟨more.length, Nat.lt_succ_of_le hlen, last, ?_, hl⟩
  rw [List.append_assoc, List.getElem?_append_right (Nat.le_refl _), Nat.sub_self]
  rfl

theorem prefixValue_eq_sum (p : Bytes) :
    prefixValue p = ∑ i ∈ Finset.range p.length, (p.getD i 0).toNat % 128 * 128 ^ i := by
  induction p with
  | nil => rfl
  | cons b p ih =>
    rw [prefixValue_cons, ih, List.length_cons, Finset.sum_range_succ', Finset.mul_sum,
      Nat.add_comm]
    simp only [List.getD_cons_succ, List.getD_cons_zero, pow_zero, Nat.mul_one, Nat.pow_succ]
    congr 1
    exact Finset.sum_congr rfl fun i _ => by ring

theorem unpackLength_endsAt {r : Bytes} {j : Nat} (hj : j < 4) (hends : EndsAt r j)
    (hfirst : ∀ i < j, ¬ EndsAt r i) :
    ∃ length, unpackLength r = .ok (UInt32.ofNat (j + 1), length) ∧
      length.toNat = ∑ i ∈ Finset.range (j + 1), (r.getD i 0).toNat % 128 * 128 ^ i := by
  obtain ⟨hp, hlen⟩ := isLengthPrefix_take hj hends hfirst
  have hunpack := unpackLength_prefix_append hp (r.drop (j + 1))
  rw [List.take_append_drop, hlen] at hunpack
  refine ⟨_, hunpack, ?_⟩
  have hle := hp.value_le
  rw [UInt32.toNat_ofNat_of_lt' (show _ < 2 ^ 32 by omega), prefixValue_eq_sum, hlen]
  refine Finset.sum_congr rfl fun i hi => ?_
  rw [List.getD_eq_getElem?_getD, List.getElem?_take_of_lt (Finset.mem_range.mp hi),
    ← List.getD_eq_getElem?_getD]

theorem unpackLength_not_endsAt {r : Bytes} (h : ¬ ∃ j < 4, EndsAt r j) :
    unpackLength r = .error (.invalidArgument (lengthError r.length)) := by
  refine unpackLength_error fun p s hp hr => h ?_
  rw [hr]
  exact exists_endsAt_append hp s

/-- **The heads that the loop gets to.**  From each of them it returns what it returns from the
start. -/
theorem result_of_run {range : Range} {trace : List (LoopState × UInt8)} {s : LoopState}
    (r : Run Round (LoopState.start range) trace s) : s.result = unpackLength range ∧ AtHead s := by
  constructor
  · exact r.invariant (P := fun s => s.result = unpackLength range)
      (fun _ _ _ hs h => h.result_eq.symm.trans hs) rfl
  · exact r.invariant (fun _ _ _ hs h => hs.round h) (atHead_start range)

/-- **Length decoding is exact and cannot wrap.**  The decoder succeeds iff one of the first four
bytes has a clear high bit; it stops at the first of them, and gives the sum of the digits up to
there.  At every head that its loop gets to the round that follows is computed exactly.  Without
such a byte it throws, for the end of the range or for the fourth byte. -/
theorem unpackLength_exact (r : Bytes) :
    ((∃ x, unpackLength r = .ok x) ↔ ∃ j < 4, EndsAt r j) ∧
    (∀ j < 4, EndsAt r j → (∀ i < j, ¬ EndsAt r i) →
      ∃ length, unpackLength r = .ok (UInt32.ofNat (j + 1), length) ∧
        length.toNat = ∑ i ∈ Finset.range (j + 1), (r.getD i 0).toNat % 128 * 128 ^ i) ∧
    (∀ trace s, Run Round (LoopState.start r) trace s →
      s.result = unpackLength r ∧ ∀ b it, s.it = b :: it → ExactRound s b) ∧
    ((¬ ∃ j < 4, EndsAt r j) → unpackLength r = .error (.invalidArgument
      (if r.length < 4 then "Incomplete variable-length encoding."
        else "Variable-length encoding exceeds 4 bytes."))) := by
  refine ⟨⟨fun hok => ?_, fun h => ?_⟩,
    fun j hj hends hfirst => unpackLength_endsAt hj hends hfirst, fun trace s hrun => ?_,
    unpackLength_not_endsAt⟩
  · by_contra hno
    obtain ⟨x, hx⟩ := hok
    rw [unpackLength_not_endsAt hno] at hx
    cases hx
  · obtain ⟨j, hj, hends, hfirst⟩ := exists_first_endsAt h
    obtain ⟨length, hlength, -⟩ := unpackLength_endsAt hj hends hfirst
    exact ⟨_, hlength⟩
  · obtain ⟨hresult, hhead⟩ := result_of_run hrun
    exact ⟨hresult, fun b _ _ => hhead.exactRound b⟩

/-! ### The encoder -/

theorem unpackLength_ok {r : Bytes} {processed length : UInt32}
    (h : unpackLength r = .ok (processed, length)) :
    ∃ p s, IsLengthPrefix p ∧ r = p ++ s ∧ processed.toNat = p.length ∧
      length.toNat = prefixValue p := by
  by_cases hprefix : ∃ p s, IsLengthPrefix p ∧ r = p ++ s
  · obtain ⟨p, s, hp, rfl⟩ := hprefix
    rw [unpackLength_prefix_append hp] at h
    obtain ⟨rfl, rfl⟩ := Prod.mk.inj (Except.ok.inj h)
    have hlen := hp.length_le
    have hvalue := hp.value_le
    exact ⟨p, s, hp, rfl, UInt32.toNat_ofNat_of_lt' (show _ < 2 ^ 32 by omega),
      UInt32.toNat_ofNat_of_lt' (show _ < 2 ^ 32 by omega)⟩
  · rw [unpackLength_error fun p s hp hr => hprefix ⟨p, s, hp, hr⟩] at h
    cases h

theorem lengthPrefix_shorter {n processed : UInt32} {other : Bytes}
    (hother : unpackLength other = .ok (processed, n)) (hall : processed.toNat = other.length)
    (hne : other ≠ lengthPrefix n.toNat) : (lengthPrefix n.toNat).length < other.length := by
  obtain ⟨p, s, hprefix, rfl, hprocessed, hvalue⟩ := unpackLength_ok hother
  -- all of it has been consumed, so it is the prefix
  have hnil : s = [] := by
    rw [hall, List.length_append] at hprocessed
    exact List.eq_nil_of_length_eq_zero (by omega)
  rw [hnil, List.append_nil] at hne ⊢
  rw [hvalue] at hne ⊢
  rcases lengthPrefix_cases hprefix with ⟨-, heq⟩ | ⟨-, hlt⟩
  · exact absurd heq.symm hne
  · exact hlt

/-- **Length encoding is the unique shortest one.**  The encoder throws on what is larger than
`MAX_LENGTH`.  Everything else it writes in one to four bytes, which are decoded to it in front of
anything; and all other bytes that are decoded to it are more. -/
theorem packLength_shortest (n : UInt32) :
    ((∃ what, packLength n = .error (.invalidArgument what)) ↔ 268435455 < n.toNat) ∧
    (¬ 268435455 < n.toNat → ∃ bytes, packLength n = .ok bytes ∧
      1 ≤ bytes.length ∧ bytes.length ≤ 4 ∧
      (∀ s, unpackLength (bytes ++ s) = .ok (UInt32.ofNat bytes.length, n)) ∧
      ∀ other processed, unpackLength other = .ok (processed, n) →
        processed.toNat = other.length → other ≠ bytes → bytes.length < other.length) := by
  constructor
  · constructor
    · intro h
      obtain ⟨what, hwhat⟩ := h
      by_contra hle
      rw [packLength_eq (Nat.not_lt.mp hle)] at hwhat
      cases hwhat
    · exact fun hlt => ⟨_, packLength_error hlt⟩
  · intro hle
    have hp := isLengthPrefix_lengthPrefix (Nat.not_lt.mp hle)
    refine ⟨lengthPrefix n.toNat, packLength_eq (Nat.not_lt.mp hle), hp.length_pos, hp.length_le,
      fun s => ?_, fun other processed hother hall hne => lengthPrefix_shorter hother hall hne⟩
    rw [unpackLength_prefix_append hp, prefixValue_lengthPrefix, UInt32.ofNat_toNat]

end Mydds.Util
