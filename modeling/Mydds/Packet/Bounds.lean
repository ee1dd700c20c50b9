import Mydds.Packet.Grammar

/-!
# The decoder and the end of its input

A call stays inside its range if it forms no iterator outside of it and ends.  Every nested
`Unpack` does, and the count that it returns is that of a word in front of it: one byte at
least, and no more than there are.  So `begin` moves in every round of an item loop, and the
loop stops on `end`.

The `default` branch of the `switch` does not look at `end`.  `staysInside_iff` is the exact
condition: an unknown type byte needs nine others behind it.
-/

namespace Mydds

open Lib

/-- No iterator outside of its range, and no loop without an end. -/
def Inside {α : Type} (result : Result α) : Prop :=
  result ≠ .error .outOfRange ∧ result ≠ .error .diverges

theorem inside_ok {α : Type} (a : α) : Inside (.ok a : Result α) := by
  refine ⟨fun h => ?_, fun h => ?_⟩
  · cases h
  · cases h

theorem inside_invalidArgument {α : Type} (what : String) :
    Inside (.error (.invalidArgument what) : Result α) := by
  refine ⟨fun h => ?_, fun h => ?_⟩
  · cases h
  · cases h

/-- On every rest of the range the nested call stays inside, and returns the count of one byte
or more that are there. -/
def NestedInside {ι : Type} (unpack : Range → Result (UInt32 × ι)) (range : Range) : Prop :=
  ∀ rest, rest <:+ range → Inside (unpack rest) ∧
    ∀ n item, unpack rest = .ok (n, item) → 1 ≤ n.toNat ∧ n.toNat ≤ rest.length

/-- On every rest of the range the loop stays inside, and has processed all of it if it
returns. -/
def LoopInside {ι : Type} (unpack : Range → Result (UInt32 × ι)) (range : Range) : Prop :=
  ∀ rest, rest <:+ range → Inside (unpackLoop unpack rest.length rest [] 0) ∧
    ∀ total data, unpackLoop unpack rest.length rest [] 0 = .ok (total, data) →
      total = UInt32.ofNat rest.length

section Reads

variable {β ι : Type} {enc : β → Bytes} {obj : β → ι} {unpack : Range → Result (UInt32 × ι)}

theorem Reads.nestedInside (h : Reads enc obj unpack) (range : Range) :
    NestedInside unpack range := by
  intro rest _
  by_cases hword : ∃ b s, rest = enc b ++ s
  · obtain ⟨b, s, rfl⟩ := hword
    rw [h.word]
    refine ⟨inside_ok _, fun n item hn => ?_⟩
    obtain ⟨rfl, -⟩ := Prod.mk.inj (Except.ok.inj hn)
    rw [h.toNat_length, List.length_append]
    exact ⟨List.length_pos_iff.mpr (h.isPrefixCode.ne_nil b), Nat.le_add_right _ _⟩
  · obtain ⟨what, hwhat⟩ := h.reject rest fun b s e => hword ⟨b, s, e⟩
    rw [hwhat]
    refine ⟨inside_invalidArgument what, fun n item hn => ?_⟩
    cases hn

theorem Reads.loopInside (h : Reads enc obj unpack) (range : Range) : LoopInside unpack range := by
  intro rest _
  by_cases hwords : ∃ bs : List β, rest = bs.flatMap enc
  · obtain ⟨bs, rfl⟩ := hwords
    rw [h.unpackLoop_all]
    refine ⟨inside_ok _, fun total data htotal => ?_⟩
    exact (Prod.mk.inj (Except.ok.inj htotal)).1.symm
  · obtain ⟨what, hwhat⟩ := h.unpackLoop_reject rest.length rest [] 0 (Nat.le_refl _)
      fun bs e => hwords ⟨bs, e⟩
    rw [hwhat]
    refine ⟨inside_invalidArgument what, fun total data htotal => ?_⟩
    cases htotal

end Reads

theorem DDSHeader.nestedInside (range : Range) : NestedInside DDSHeader.unpack range := by
  intro rest _
  cases rest with
  | nil =>
    refine ⟨inside_invalidArgument _, fun n item hn => ?_⟩
    cases hn
  | cons type rest =>
    refine ⟨inside_ok _, fun n item hn => ?_⟩
    obtain ⟨rfl, -⟩ := Prod.mk.inj (Except.ok.inj hn)
    exact ⟨Nat.le_refl 1, Nat.succ_le_succ (Nat.zero_le _)⟩

namespace DDSPacket

/-- The call stays inside its range, and so do all calls below it. -/
structure StaysInside (packet : DDSPacket) (range : Range) : Prop where
  inside : Inside (packet.unpack range).1
  header : NestedInside DDSHeader.unpack range
  name : NestedInside TopicName.unpack range
  data : NestedInside TopicData.unpack range
  item : NestedInside TopicPacket.unpack range
  names : LoopInside TopicName.unpack range
  items : LoopInside TopicPacket.unpack range

theorem inside_unpack_toByte (packet : DDSPacket) (kind : CommunicationType) (rest : Bytes) :
    Inside (packet.unpack (kind.toByte :: rest)).1 := by
  by_cases h : ∃ frames, IsPayload kind rest frames
  · obtain ⟨frames, hframes⟩ := h
    rw [packet.unpack_payload hframes]
    exact inside_ok _
  · obtain ⟨what, hwhat⟩ := packet.unpack_reject fun frames hframes => h ⟨frames, hframes⟩
    rw [hwhat]
    exact inside_invalidArgument what

/-- **An unknown type byte is logged with the nine bytes behind it**, if they are there or not. -/
theorem inside_unpack_unknown_iff (packet : DDSPacket) {type : UInt8}
    (htype : CommunicationType.ofByte type = none) (rest : Bytes) :
    Inside (packet.unpack (type :: rest)).1 ↔ 10 ≤ (type :: rest).length := by
  rw [unpack_cons, htype, slice_zero]
  by_cases hlong : 10 ≤ (type :: rest).length
  · rw [if_pos hlong]
    exact iff_of_true (inside_ok _) hlong
  · rw [if_neg hlong]
    exact iff_of_false (fun h => h.1 rfl) hlong

/-- **The decoder stays inside its input iff** the input is empty, its type byte is known, or it
has ten bytes. -/
theorem staysInside_iff (packet : DDSPacket) (range : Range) :
    packet.StaysInside range ↔
      range = [] ∨ (∃ kind rest, range = CommunicationType.toByte kind :: rest) ∨
        10 ≤ range.length := by
  have hrest : packet.StaysInside range ↔ Inside (packet.unpack range).1 := by
    refine ⟨StaysInside.inside, fun h => ⟨h, DDSHeader.nestedInside range, ?_, ?_, ?_, ?_, ?_⟩⟩
    · exact TopicName.unpack_reads.nestedInside range
    · exact TopicData.unpack_reads.nestedInside range
    · exact TopicPacket.unpack_reads.nestedInside range
    · exact TopicName.unpack_reads.loopInside range
    · exact TopicPacket.unpack_reads.loopInside range
  rw [hrest]
  cases range with
  | nil => exact iff_of_true (inside_invalidArgument _) (Or.inl rfl)
  | cons type rest =>
    cases htype : CommunicationType.ofByte type with
    | some kind =>
      obtain rfl := CommunicationType.toByte_of_ofByte htype
      exact iff_of_true (packet.inside_unpack_toByte kind rest) (Or.inr (Or.inl ⟨kind, rest, rfl⟩))
    | none =>
      rw [packet.inside_unpack_unknown_iff htype rest]
      constructor
      · exact fun hlong => Or.inr (Or.inr hlong)
      · intro h
        rcases h with h | ⟨kind, rest', h⟩ | h
        · cases h
        · rw [CommunicationType.ofByte_head h] at htype
          cases htype
        · exact h

/-- One byte, that of no kind. -/
theorem staysInside_fails : ¬ (fresh 0).StaysInside [3] := by
  intro h
  exact h.inside.1 (by decide)

end DDSPacket

end Mydds
