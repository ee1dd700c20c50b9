import Mydds.Util
import Mathlib.Data.Nat.Digits.Defs

/-!
# Variable-length integers

A length prefix is one to four bytes, the high bit set on all but the last, and its
value is the base-128 number that the low seven bits spell, least significant first.

* `unpackLength_prefix_append`: in front of anything, a length prefix is decoded to its value
  and to the count of its bytes.  The loop runs with `length < 128 ^ k` and
  `multiplier = 128 ^ k` after `k` bytes, so that none of its 32-bit operations wraps and
  the comparison with `MAX_LENGTH` never stops it.
* `unpackLength_error`: without a length prefix in front the call throws.
* `packLength_eq`: up to `MAX_LENGTH` the encoder writes `lengthPrefix`, which
  is a length prefix of that value.
* `lengthPrefix_cases`: every other prefix of the value is longer, and its last byte is zero.
-/

namespace Mydds

/-! ### Bytes -/

theorem toNat_and_127 (b : UInt8) : (b &&& 127).toUInt32.toNat = b.toNat % 128 := by
  rw [UInt8.toNat_toUInt32, UInt8.toNat_and]
  exact Nat.and_two_pow_sub_one_eq_mod b.toNat 7

theorem and_128_eq_zero_iff (b : UInt8) : b &&& 128 = 0 ↔ b.toNat < 128 := by
  have h : ∀ v : BitVec 8, v &&& 128#8 = 0#8 ↔ v.toNat < 128 := by decide
  rw [← UInt8.toBitVec_inj, UInt8.toBitVec_and]
  exact h b.toBitVec

/-! ### Length prefixes -/

/-- One to four bytes, all but the last with the high bit set. -/
def IsLengthPrefix (p : Bytes) : Prop :=
  ∃ (more : Bytes) (last : UInt8), p = more ++ [last] ∧ more.length ≤ 3 ∧
    (∀ b ∈ more, 128 ≤ b.toNat) ∧ last.toNat < 128

/-- The base-128 number of the low seven bits, least significant byte first. -/
def prefixValue (p : Bytes) : Nat := Nat.ofDigits 128 (p.map (fun b => b.toNat % 128))

@[simp] theorem prefixValue_nil : prefixValue [] = 0 := rfl

theorem prefixValue_cons (b : UInt8) (p : Bytes) :
    prefixValue (b :: p) = b.toNat % 128 + 128 * prefixValue p := by
  rw [prefixValue, List.map_cons, Nat.ofDigits_cons, ← prefixValue]

theorem prefixValue_lt (p : Bytes) : prefixValue p < 128 ^ p.length := by
  induction p with
  | nil => decide
  | cons b p ih =>
    have hb : b.toNat % 128 < 128 := Nat.mod_lt _ (by decide)
    rw [prefixValue_cons, List.length_cons, Nat.pow_succ]
    omega

theorem IsLengthPrefix.length_pos {p : Bytes} (h : IsLengthPrefix p) : 0 < p.length := by
  obtain ⟨more, last, rfl, -⟩ := h
  rw [List.length_append, List.length_singleton]
  exact Nat.succ_pos _

theorem IsLengthPrefix.length_le {p : Bytes} (h : IsLengthPrefix p) : p.length ≤ 4 := by
  obtain ⟨more, last, rfl, hlen, -⟩ := h
  rw [List.length_append, List.length_singleton]
  omega

theorem IsLengthPrefix.value_le {p : Bytes} (h : IsLengthPrefix p) :
    prefixValue p ≤ 268435455 := by
  have h1 := prefixValue_lt p
  have h2 : 128 ^ p.length ≤ 128 ^ 4 := Nat.pow_le_pow_right (by decide) h.length_le
  omega

/-! ### Decoding -/

namespace Util

theorem length_step {length multiplier : UInt32} {k : Nat} (b : UInt8) (hk : k ≤ 3)
    (hlen : length.toNat < 128 ^ k) (hmul : multiplier.toNat = 128 ^ k) :
    (length + (b &&& 127).toUInt32 * multiplier).toNat
        = length.toNat + 128 ^ k * (b.toNat % 128) ∧
      length.toNat + 128 ^ k * (b.toNat % 128) < 128 ^ (k + 1) ∧
      ¬ length + (b &&& 127).toUInt32 * multiplier > maxLength := by
  have hpow : 128 ^ k ≤ 128 ^ 3 := Nat.pow_le_pow_right (by decide) hk
  have hdigit : 128 ^ k * (b.toNat % 128) ≤ 128 ^ k * 127 :=
    Nat.mul_le_mul_left _ (Nat.le_of_lt_succ (Nat.mod_lt _ (by decide)))
  have hsum : (length + (b &&& 127).toUInt32 * multiplier).toNat
      = length.toNat + 128 ^ k * (b.toNat % 128) := by
    rw [UInt32.toNat_add, UInt32.toNat_mul, toNat_and_127, hmul, Nat.mul_comm (b.toNat % 128)]
    omega
  refine ⟨hsum, by rw [Nat.pow_succ]; omega, ?_⟩
  rw [gt_iff_lt, UInt32.lt_iff_toNat_lt, hsum, show maxLength.toNat = 268435455 from rfl]
  omega

theorem multiplier_step {multiplier : UInt32} {k : Nat} (hk : k ≤ 3)
    (hmul : multiplier.toNat = 128 ^ k) : (multiplier * 128).toNat = 128 ^ (k + 1) := by
  have hpow : 128 ^ k ≤ 128 ^ 3 := Nat.pow_le_pow_right (by decide) hk
  rw [UInt32.toNat_mul, hmul, Nat.pow_succ, show (128 : UInt32).toNat = 128 from rfl]
  omega

theorem unpackLengthLoop_prefix {more : Bytes} {last : UInt8} (s : Bytes)
    (hm : ∀ b ∈ more, 128 ≤ b.toNat) (hl : last.toNat < 128) :
    ∀ {length multiplier : UInt32} {k : Nat}, more.length + k ≤ 3 → length.toNat < 128 ^ k →
      multiplier.toNat = 128 ^ k →
      unpackLengthLoop (more ++ last :: s) length multiplier k
        = .ok (UInt32.ofNat (k + more.length + 1),
            UInt32.ofNat (length.toNat + 128 ^ k * prefixValue (more ++ [last]))) := by
  induction more with
  | nil =>
    intro length multiplier k hk hlen hmul
    obtain ⟨hsum, -, hmax⟩ := length_step last (by simpa using hk) hlen hmul
    rw [List.nil_append, unpackLengthLoop, if_neg hmax, if_pos ((and_128_eq_zero_iff last).mpr hl),
      List.nil_append, prefixValue_cons, prefixValue_nil, Nat.mul_zero,
      Nat.add_zero (last.toNat % 128), ← hsum, UInt32.ofNat_toNat, List.length_nil, Nat.add_zero]
  | cons b more ih =>
    intro length multiplier k hk hlen hmul
    rw [List.length_cons] at hk
    obtain ⟨hsum, hlt, hmax⟩ := length_step b (by omega) hlen hmul
    have hb : ¬ b &&& 128 = 0 := by
      rw [and_128_eq_zero_iff]
      exact Nat.not_lt.mpr (hm b List.mem_cons_self)
    have hround : ¬ k ≥ maxBytes - 1 := by
      rw [show maxBytes - 1 = 3 from rfl]
      omega
    rw [List.cons_append, unpackLengthLoop, if_neg hmax, if_neg hb, if_neg hround,
      ih (fun c hc => hm c (List.mem_cons_of_mem _ hc)) (by omega) (by rw [hsum]; exact hlt)
        (multiplier_step (by omega) hmul),
      hsum, List.cons_append, prefixValue_cons, List.length_cons, Nat.pow_succ]
    congr 3
    · omega
    · rw [Nat.mul_add, Nat.add_assoc, Nat.mul_assoc]

/-- **A length prefix is decoded to its value**, whatever follows it. -/
theorem unpackLength_prefix_append {p : Bytes} (hp : IsLengthPrefix p) (s : Bytes) :
    unpackLength (p ++ s) = .ok (UInt32.ofNat p.length, UInt32.ofNat (prefixValue p)) := by
  obtain ⟨more, last, rfl, hlen, hm, hl⟩ := hp
  rw [unpackLength, List.append_assoc, List.singleton_append,
    unpackLengthLoop_prefix s hm hl (by omega) (by decide) (by decide)]
  simp

/-- Why the decoder gave up: the input ended, or four bytes all said that more follow. -/
def lengthError (n : Nat) : String :=
  if n < 4 then "Incomplete variable-length encoding."
  else "Variable-length encoding exceeds 4 bytes."

theorem unpackLengthLoop_error : ∀ {r : Bytes} {length multiplier : UInt32} {k : Nat}, k ≤ 3 →
    length.toNat < 128 ^ k → multiplier.toNat = 128 ^ k →
    (∀ more last s, r = more ++ last :: s → (∀ b ∈ more, 128 ≤ b.toNat) → last.toNat < 128 →
      3 < more.length + k) →
    unpackLengthLoop r length multiplier k
      = .error (.invalidArgument (lengthError (r.length + k))) := by
  intro r
  induction r with
  | nil =>
    intro length multiplier k hk _ _ _
    rw [unpackLengthLoop, lengthError, if_pos (by simpa using Nat.lt_succ_of_le hk)]
  | cons b r ih =>
    intro length multiplier k hk hlen hmul hno
    obtain ⟨hsum, hlt, hmax⟩ := length_step b hk hlen hmul
    have hb : ¬ b &&& 128 = 0 := by
      rw [and_128_eq_zero_iff]
      intro hb
      have := hno [] b r rfl (by simp) hb
      simp at this
      omega
    rw [unpackLengthLoop, if_neg hmax, if_neg hb]
    by_cases hround : k ≥ maxBytes - 1
    · have hk3 : 3 ≤ k := hround
      rw [if_pos hround, lengthError, if_neg (by rw [List.length_cons]; omega)]
    · have hk3 : ¬ 3 ≤ k := hround
      rw [if_neg hround, ih (by omega) (by rw [hsum]; exact hlt) (multiplier_step hk hmul)]
      · rw [List.length_cons]
        congr 3
        omega
      · intro more last s hr hm hl
        have h128 : 128 ≤ b.toNat := Nat.not_lt.mp (fun h => hb ((and_128_eq_zero_iff b).mpr h))
        have := hno (b :: more) last s (by rw [hr, List.cons_append])
          (by rintro c (_ | ⟨_, hc⟩); exacts [h128, hm c hc]) hl
        rw [List.length_cons] at this
        omega

/-- **Without a length prefix in front the decoder throws.** -/
theorem unpackLength_error {r : Bytes} (h : ∀ p s, IsLengthPrefix p → r ≠ p ++ s) :
    unpackLength r = .error (.invalidArgument (lengthError r.length)) := by
  rw [unpackLength, unpackLengthLoop_error (by decide) (by decide) (by decide), Nat.add_zero]
  intro more last s hr hm hl
  by_contra hlen
  refine h (more ++ [last]) s ⟨more, last, rfl, by omega, hm, hl⟩ ?_
  rw [hr, List.append_assoc, List.singleton_append]

/-! ### Encoding -/

/-- The shortest length prefix of `n`. -/
def lengthPrefix (n : Nat) : Bytes :=
  if n < 128 then [UInt8.ofNat n] else UInt8.ofNat (n % 128 + 128) :: lengthPrefix (n / 128)

theorem lengthPrefix_of_lt {n : Nat} (h : n < 128) : lengthPrefix n = [UInt8.ofNat n] := by
  rw [lengthPrefix, if_pos h]

theorem lengthPrefix_of_ge {n : Nat} (h : ¬ n < 128) :
    lengthPrefix n = UInt8.ofNat (n % 128 + 128) :: lengthPrefix (n / 128) := by
  rw [lengthPrefix, if_neg h]

theorem prefixValue_lengthPrefix (n : Nat) : prefixValue (lengthPrefix n) = n := by
  induction n using Nat.strong_induction_on with
  | _ n ih =>
    by_cases h : n < 128
    · rw [lengthPrefix_of_lt h, prefixValue_cons, prefixValue_nil, UInt8.toNat_ofNat']
      omega
    · rw [lengthPrefix_of_ge h, prefixValue_cons, ih (n / 128) (by omega), UInt8.toNat_ofNat']
      omega

theorem ofNat_toNat_of_lt {n : Nat} (h : n < 256) : (UInt8.ofNat n).toNat = n := by
  rw [UInt8.toNat_ofNat']
  omega

theorem lengthPrefix_run : ∀ (k n : Nat), n < 128 ^ (k + 1) → ∃ (more : Bytes) (last : UInt8),
    lengthPrefix n = more ++ [last] ∧ more.length ≤ k ∧ (∀ b ∈ more, 128 ≤ b.toNat) ∧
      last.toNat < 128 := by
  intro k
  induction k with
  | zero =>
    intro n hn
    rw [zero_add, pow_one] at hn
    exact ⟨[], UInt8.ofNat n, lengthPrefix_of_lt hn, Nat.le_refl 0, by simp,
      by rwa [ofNat_toNat_of_lt (by omega)]⟩
  | succ k ih =>
    intro n hn
    by_cases h : n < 128
    · exact ⟨[], UInt8.ofNat n, lengthPrefix_of_lt h, Nat.zero_le _, by simp,
        by rwa [ofNat_toNat_of_lt (by omega)]⟩
    · obtain ⟨more, last, hmore, hlen, hm, hl⟩ := ih (n / 128)
        (Nat.div_lt_of_lt_mul (by rw [Nat.pow_succ] at hn; omega))
      refine ⟨UInt8.ofNat (n % 128 + 128) :: more, last, ?_, ?_, ?_, hl⟩
      · rw [lengthPrefix_of_ge h, hmore, List.cons_append]
      · rw [List.length_cons]
        omega
      · rintro c (_ | ⟨_, hc⟩)
        · rw [ofNat_toNat_of_lt (by omega)]
          omega
        · exact hm c hc

theorem isLengthPrefix_lengthPrefix {n : Nat} (hn : n ≤ 268435455) :
    IsLengthPrefix (lengthPrefix n) := lengthPrefix_run 3 n (by omega)

/-- In front of a byte that says that more follow, the shortest prefix goes on with it, unless
nothing of value follows. -/
theorem lengthPrefix_prefixValue_cons {b : UInt8} (hb : 128 ≤ b.toNat) {p : Bytes}
    (hp : prefixValue p ≠ 0) :
    lengthPrefix (prefixValue (b :: p)) = b :: lengthPrefix (prefixValue p) := by
  have hlt := b.toNat_lt
  have hlow : (prefixValue (b :: p)) % 128 + 128 = b.toNat := by
    rw [prefixValue_cons]
    omega
  have hrest : prefixValue (b :: p) / 128 = prefixValue p := by
    rw [prefixValue_cons]
    omega
  have hge : ¬ prefixValue (b :: p) < 128 := by
    rw [prefixValue_cons]
    omega
  rw [lengthPrefix_of_ge hge, hlow, hrest, UInt8.ofNat_toNat]

theorem prefixValue_ne_zero {last : UInt8} (hl : last.toNat < 128) (hlast : last ≠ 0)
    (more : Bytes) : prefixValue (more ++ [last]) ≠ 0 := by
  induction more with
  | nil =>
    have hpos : last.toNat ≠ 0 := fun h => hlast (UInt8.toNat_inj.mp h)
    rw [List.nil_append, prefixValue_cons, prefixValue_nil]
    omega
  | cons b more ih =>
    rw [List.cons_append, prefixValue_cons]
    omega

/-- **A prefix is the shortest one of its value if its last byte is not zero**, or if it has no
other. -/
theorem lengthPrefix_prefixValue {more : Bytes} {last : UInt8} (hm : ∀ b ∈ more, 128 ≤ b.toNat)
    (hl : last.toNat < 128) (hlast : last ≠ 0 ∨ more = []) :
    lengthPrefix (prefixValue (more ++ [last])) = more ++ [last] := by
  induction more with
  | nil =>
    rw [List.nil_append, prefixValue_cons, prefixValue_nil, Nat.mul_zero, Nat.add_zero,
      Nat.mod_eq_of_lt hl, lengthPrefix_of_lt hl, UInt8.ofNat_toNat]
  | cons b more ih =>
    have hne : last ≠ 0 := by
      rcases hlast with h | h
      · exact h
      · cases h
    rw [List.cons_append, lengthPrefix_prefixValue_cons (hm b List.mem_cons_self)
      (prefixValue_ne_zero hl hne more),
      ih (fun c hc => hm c (List.mem_cons_of_mem _ hc)) (Or.inl hne)]

theorem length_lengthPrefix_lt {more : Bytes} (hm : ∀ b ∈ more, 128 ≤ b.toNat) (hmore : more ≠ []) :
    (lengthPrefix (prefixValue (more ++ [0]))).length < (more ++ [0]).length := by
  induction more with
  | nil => exact absurd rfl hmore
  | cons b more ih =>
    rw [List.cons_append]
    by_cases hzero : prefixValue (more ++ [0]) = 0
    · have hsmall : prefixValue (b :: (more ++ [0])) < 128 := by
        rw [prefixValue_cons, hzero]
        omega
      rw [lengthPrefix_of_lt hsmall]
      simp
    · have hmore' : more ≠ [] := by
        intro h
        rw [h] at hzero
        exact hzero rfl
      rw [lengthPrefix_prefixValue_cons (hm b List.mem_cons_self) hzero]
      have hlt := ih (fun c hc => hm c (List.mem_cons_of_mem _ hc)) hmore'
      simpa using hlt

/-- Of minimal width: the last byte is not zero, or there is no other. -/
def IsShortest (p : Bytes) : Prop := p.getLast? ≠ some 0 ∨ p.length = 1

/-- **A prefix is the shortest one of its value, or longer**; it is of minimal width in the first
case only. -/
theorem lengthPrefix_cases {p : Bytes} (hp : IsLengthPrefix p) :
    (IsShortest p ∧ lengthPrefix (prefixValue p) = p) ∨
      (¬ IsShortest p ∧ (lengthPrefix (prefixValue p)).length < p.length) := by
  obtain ⟨more, last, rfl, -, hm, hl⟩ := hp
  have hwidth : IsShortest (more ++ [last]) ↔ last ≠ 0 ∨ more = [] := by
    simp [IsShortest]
  rw [hwidth]
  by_cases hshort : last ≠ 0 ∨ more = []
  · exact Or.inl ⟨hshort, lengthPrefix_prefixValue hm hl hshort⟩
  · obtain ⟨hlast, hmore⟩ := not_or.mp hshort
    obtain rfl := not_not.mp hlast
    exact Or.inr ⟨hshort, length_lengthPrefix_lt hm hmore⟩

theorem lengthPrefix_eq_iff {p : Bytes} (hp : IsLengthPrefix p) :
    (lengthPrefix (prefixValue p)).length ≤ p.length ∧
      (lengthPrefix (prefixValue p) = p ↔ IsShortest p) := by
  rcases lengthPrefix_cases hp with ⟨hshort, heq⟩ | ⟨hlong, hlt⟩
  · exact ⟨Nat.le_of_eq (congrArg List.length heq), iff_of_true heq hshort⟩
  · refine ⟨Nat.le_of_lt hlt, iff_of_false (fun heq => ?_) hlong⟩
    rw [heq] at hlt
    exact Nat.lt_irrefl _ hlt

theorem packLengthLoop_last {length : UInt32} (h : length.toNat < 128) (fuel : Nat)
    (encodedBytes : Bytes) :
    packLengthLoop (fuel + 1) length encodedBytes
      = .ok (encodedBytes ++ lengthPrefix length.toNat) := by
  have hdiv : ¬ length / 128 > 0 := by
    rw [gt_iff_lt, UInt32.lt_iff_toNat_lt, UInt32.toNat_div]
    exact Nat.not_lt.mpr (Nat.le_of_eq (Nat.div_eq_of_lt h))
  have hbyte : (length % 128).toUInt8 = UInt8.ofNat length.toNat := by
    rw [← UInt8.toNat_inj, UInt32.toNat_toUInt8, UInt32.toNat_mod, UInt8.toNat_ofNat',
      show (128 : UInt32).toNat = 128 from rfl]
    omega
  rw [packLengthLoop, if_neg hdiv, if_neg hdiv, lengthPrefix_of_lt h, hbyte]

theorem packLengthLoop_more {length : UInt32} (h : ¬ length.toNat < 128) (fuel : Nat)
    (encodedBytes : Bytes) :
    packLengthLoop (fuel + 1) length encodedBytes
      = packLengthLoop fuel (length / 128)
          (encodedBytes ++ [UInt8.ofNat (length.toNat % 128 + 128)]) := by
  have hdiv : length / 128 > 0 := by
    rw [gt_iff_lt, UInt32.lt_iff_toNat_lt, UInt32.toNat_div]
    exact Nat.div_pos (Nat.not_lt.mp h) (by decide)
  have hbyte : (length % 128).toUInt8 ||| 128 = UInt8.ofNat (length.toNat % 128 + 128) := by
    have hlow : length.toNat % 128 % 2 ^ 8 < 2 ^ 7 := by omega
    rw [← UInt8.toNat_inj, UInt8.toNat_or, UInt32.toNat_toUInt8, UInt32.toNat_mod,
      UInt8.toNat_ofNat', show (128 : UInt32).toNat = 128 from rfl,
      show (128 : UInt8).toNat = 2 ^ 7 * 1 from rfl, Nat.or_comm,
      ← Nat.two_pow_add_eq_or_of_lt hlow]
    omega
  rw [packLengthLoop, if_pos hdiv, if_pos hdiv, hbyte]

theorem packLengthLoop_eq : ∀ (fuel : Nat) (length : UInt32) (encodedBytes : Bytes),
    length.toNat < 128 ^ (fuel + 1) →
    packLengthLoop (fuel + 1) length encodedBytes
      = .ok (encodedBytes ++ lengthPrefix length.toNat) := by
  intro fuel
  induction fuel with
  | zero =>
    intro length encodedBytes hlt
    exact packLengthLoop_last (by simpa using hlt) 0 encodedBytes
  | succ fuel ih =>
    intro length encodedBytes hlt
    by_cases h : length.toNat < 128
    · exact packLengthLoop_last h _ encodedBytes
    · have hquot : (length / 128).toNat = length.toNat / 128 := UInt32.toNat_div ..
      have hlt' : (length / 128).toNat < 128 ^ (fuel + 1) := by
        rw [hquot]
        exact Nat.div_lt_of_lt_mul (by rw [Nat.pow_succ] at hlt; omega)
      rw [packLengthLoop_more h, ih _ _ hlt', hquot, lengthPrefix_of_ge h, List.append_assoc,
        List.singleton_append]

/-- **The encoder writes the shortest length prefix.** -/
theorem packLength_eq {length : UInt32} (h : length.toNat ≤ 268435455) :
    packLength length = .ok (lengthPrefix length.toNat) := by
  have hmax : ¬ length > maxLength := by
    rw [gt_iff_lt, UInt32.lt_iff_toNat_lt, show maxLength.toNat = 268435455 from rfl]
    omega
  rw [packLength, if_neg hmax, packLengthLoop_eq 4 length [] (by omega), List.nil_append]

theorem packLength_error {length : UInt32} (h : 268435455 < length.toNat) :
    packLength length = .error (.invalidArgument "Length exceeds maximum MQTT length.") := by
  have hmax : length > maxLength := by
    rw [gt_iff_lt, UInt32.lt_iff_toNat_lt, show maxLength.toNat = 268435455 from rfl]
    exact h
  rw [packLength, if_pos hmax]

end Util

end Mydds
