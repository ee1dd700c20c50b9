import Mydds.Node.Handler
import Mydds.Packet.Encode
import Mydds.Lib.Run

/-!
# The header and the payload of a packet

`Unpack` writes the header first, and the payload object only when all of it could be read; an
unknown type byte is logged, and the payload object stays.  So the type byte may name another
alternative than the variant holds.  `unpack_cases` is all that a call on ten bytes or more can
do.

* `intact_iff`: on a packet in which the two agree, a call leaves them so, and leaves the packet
  as it was if it throws, iff the input is accepted or begins with the type byte that is there.
* `agrees_run_iff`: the same for all calls of a run; and what every call keeps.
* `Agrees.head_pack`: the first byte that `Pack` writes is then the kind of the payload; and
  `handler_read` gets to its `std::get` calls only after a call that returned.
-/

namespace Mydds

open Lib

/-- The kind that the alternative is the payload of. -/
def DDSData.kind : DDSData → CommunicationType
  | discoverData _ => .discover
  | publishData _ => .publish
  | subscribeData _ => .subscribe

theorem kind_payloadOf (kind : CommunicationType) (frames : List Frame) :
    (payloadOf kind frames).kind = kind := by
  cases kind <;> rfl

theorem CommunicationType.toByte_inj {kind kind' : CommunicationType} :
    kind.toByte = kind'.toByte ↔ kind = kind' := by
  constructor
  · intro h
    have hbyte := congrArg ofByte h
    rw [ofByte_toByte, ofByte_toByte] at hbyte
    exact Option.some.inj hbyte
  · exact fun h => congrArg toByte h

namespace DDSPacket

/-- The type byte names the alternative that is held. -/
def Agrees (packet : DDSPacket) : Prop := packet.header.type = packet.ddsData.kind.toByte

/-- A call of `Unpack` on ten bytes or more, however it ends. -/
def Unpacks (packet : DDSPacket) (range : Range) (packet' : DDSPacket) : Prop :=
  10 ≤ range.length ∧ packet' = (packet.unpack range).2

/-- A call that throws changes nothing, and after the call the type byte names the alternative. -/
structure Intact (packet : DDSPacket) (range : Range) : Prop where
  unchanged : (∃ fault, (packet.unpack range).1 = .error fault) → (packet.unpack range).2 = packet
  agrees : (packet.unpack range).2.Agrees

/-- The input is accepted, or begins with the type byte that the packet has; and this is known. -/
def Fits (packet : DDSPacket) (range : Range) : Prop :=
  ∃ kind rest, range = CommunicationType.toByte kind :: rest ∧
    ((∃ frames, IsPayload kind rest frames) ∨ kind.toByte = packet.header.type)

/-- What every call does: if it throws it leaves the payload, as it does if the type is unknown;
if it returns for a known type, this names the alternative. -/
structure Regular (packet : DDSPacket) (range : Range) : Prop where
  throws : ∀ fault, (packet.unpack range).1 = .error fault →
    (∃ what, fault = .invalidArgument what) ∧ (packet.unpack range).2.ddsData = packet.ddsData
  known : ∀ n kind rest, range = CommunicationType.toByte kind :: rest →
    (packet.unpack range).1 = .ok n → (packet.unpack range).2.Agrees
  unknown : ∀ type rest, range = type :: rest → CommunicationType.ofByte type = none →
    (∃ n, (packet.unpack range).1 = .ok n) ∧ (packet.unpack range).2.ddsData = packet.ddsData

/-- **All that a call can do**: accept a payload, refuse one, or log an unknown type. -/
theorem unpack_cases (packet : DDSPacket) {range : Range} (hlong : 10 ≤ range.length) :
    (∃ kind rest frames n, range = CommunicationType.toByte kind :: rest ∧
      IsPayload kind rest frames ∧
      packet.unpack range = (.ok n, ⟨⟨kind.toByte⟩, payloadOf kind frames⟩)) ∨
    (∃ kind rest what, range = CommunicationType.toByte kind :: rest ∧
      (∀ frames, ¬ IsPayload kind rest frames) ∧
      packet.unpack range = (.error (.invalidArgument what), ⟨⟨kind.toByte⟩, packet.ddsData⟩)) ∨
    (∃ type rest n, range = type :: rest ∧ CommunicationType.ofByte type = none ∧
      packet.unpack range = (.ok n, ⟨⟨type⟩, packet.ddsData⟩)) := by
  cases range with
  | nil => exact absurd hlong (by decide)
  | cons type rest =>
    cases htype : CommunicationType.ofByte type with
    | none =>
      refine Or.inr (Or.inr ⟨type, rest, UInt32.ofNat (type :: rest).length, rfl, htype, ?_⟩)
      rw [unpack_cons, htype, slice_zero, if_pos hlong]
    | some kind =>
      obtain rfl := CommunicationType.toByte_of_ofByte htype
      by_cases h : ∃ frames, IsPayload kind rest frames
      · obtain ⟨frames, hframes⟩ := h
        exact Or.inl ⟨kind, rest, frames, _, rfl, hframes, packet.unpack_payload hframes⟩
      · have hno : ∀ frames, ¬ IsPayload kind rest frames := fun frames hf => h ⟨frames, hf⟩
        obtain ⟨what, hwhat⟩ := packet.unpack_reject hno
        exact Or.inr (Or.inl ⟨kind, rest, what, rfl, hno, hwhat⟩)

/-- **One call keeps the agreement iff the input fits.** -/
theorem agrees_unpack_iff {packet : DDSPacket} (hagrees : packet.Agrees) {range : Range}
    (hlong : 10 ≤ range.length) : (packet.unpack range).2.Agrees ↔ packet.Fits range := by
  rcases packet.unpack_cases hlong with ⟨kind, rest, frames, n, rfl, hframes, hunpack⟩ |
    ⟨kind, rest, what, rfl, hno, hunpack⟩ | ⟨type, rest, n, rfl, htype, hunpack⟩
  · rw [hunpack]
    refine iff_of_true ?_ ⟨kind, rest, rfl, Or.inl ⟨frames, hframes⟩⟩
    rw [Agrees, kind_payloadOf]
  · rw [hunpack]
    constructor
    · intro h
      exact ⟨kind, rest, rfl, Or.inr (h.trans hagrees.symm)⟩
    · intro h
      obtain ⟨kind', rest', hrange, h⟩ := h
      obtain ⟨hkind, rfl⟩ := List.cons.inj hrange
      obtain rfl := CommunicationType.toByte_inj.mp hkind
      rcases h with ⟨frames, hframes⟩ | h
      · exact absurd hframes (hno frames)
      · exact h.trans hagrees
  · rw [hunpack]
    refine iff_of_false (fun h => ?_) fun h => ?_
    · have hbyte : type = packet.ddsData.kind.toByte := h
      rw [hbyte, CommunicationType.ofByte_toByte] at htype
      cases htype
    · obtain ⟨kind, rest', hrange, -⟩ := h
      rw [CommunicationType.ofByte_head hrange] at htype
      cases htype

theorem unchanged_of_agrees {packet : DDSPacket} (hagrees : packet.Agrees) {range : Range}
    (hlong : 10 ≤ range.length) (hafter : (packet.unpack range).2.Agrees)
    (hthrows : ∃ fault, (packet.unpack range).1 = .error fault) :
    (packet.unpack range).2 = packet := by
  obtain ⟨fault, hfault⟩ := hthrows
  rcases packet.unpack_cases hlong with ⟨kind, rest, frames, n, -, -, hunpack⟩ |
    ⟨kind, rest, what, -, -, hunpack⟩ | ⟨type, rest, n, -, -, hunpack⟩
  · rw [hunpack] at hfault
    cases hfault
  · rw [hunpack] at hafter ⊢
    have hbyte : kind.toByte = packet.ddsData.kind.toByte := hafter
    rw [hbyte, ← hagrees]
  · rw [hunpack] at hfault
    cases hfault

theorem intact_iff {packet : DDSPacket} (hagrees : packet.Agrees) {range : Range}
    (hlong : 10 ≤ range.length) : packet.Intact range ↔ packet.Fits range := by
  rw [← agrees_unpack_iff hagrees hlong]
  exact ⟨fun h => h.agrees, fun h => ⟨unchanged_of_agrees hagrees hlong h, h⟩⟩

theorem regular (packet : DDSPacket) {range : Range} (hlong : 10 ≤ range.length) :
    packet.Regular range := by
  rcases packet.unpack_cases hlong with ⟨kind, rest, frames, n, rfl, hframes, hunpack⟩ |
    ⟨kind, rest, what, rfl, hno, hunpack⟩ | ⟨type, rest, n, rfl, htype, hunpack⟩
  · refine ⟨fun fault h => ?_, fun m kind' rest' _ _ => ?_, fun type rest' hrange h => ?_⟩
    · rw [hunpack] at h
      cases h
    · rw [hunpack, Agrees, kind_payloadOf]
    · rw [CommunicationType.ofByte_head hrange.symm] at h
      cases h
  · refine ⟨fun fault h => ?_, fun m kind' rest' _ h => ?_, fun type rest' hrange h => ?_⟩
    · rw [hunpack] at h ⊢
      exact ⟨⟨what, (Except.error.inj h).symm⟩, rfl⟩
    · rw [hunpack] at h
      cases h
    · rw [CommunicationType.ofByte_head hrange.symm] at h
      cases h
  · refine ⟨fun fault h => ?_, fun m kind' rest' hrange _ => ?_, fun type' rest' _ _ => ?_⟩
    · rw [hunpack] at h
      cases h
    · rw [CommunicationType.ofByte_head hrange] at htype
      cases htype
    · rw [hunpack]
      exact ⟨⟨n, rfl⟩, rfl⟩

/-! ### Runs of calls -/

theorem Agrees.head_pack {packet : DDSPacket} (hagrees : packet.Agrees) {bytes : Bytes}
    (h : packet.pack = .ok bytes) : bytes.head? = some packet.ddsData.kind.toByte := by
  obtain ⟨payload, -, rfl⟩ := pack_ok h
  rw [List.head?_cons, ← hagrees]

/-- **Header and payload.**  On a packet in which the two agree, all calls of a run leave it intact
iff every input fits.  In any case a call that throws leaves the payload, and one that returns for
a known type byte leaves the two in agreement; so `handler_read` throws nothing but what the
decoder throws, and the first byte that is written names the payload. -/
theorem agrees_run_iff {packet packet' : DDSPacket} {trace : List (DDSPacket × Range)}
    (hagrees : packet.Agrees) (r : Run Unpacks packet trace packet') :
    ((∀ x ∈ trace, x.1.Intact x.2) ↔ ∀ x ∈ trace, x.1.Fits x.2) ∧
    (∀ x ∈ trace, x.1.Regular x.2) ∧
    (∀ (node : Node) (d : Datagram) fault, node.handlerRead d.info = .error fault →
      ∃ what, fault = .invalidArgument what) ∧
    ∀ p : DDSPacket, p.Agrees → ∀ bytes, p.pack = .ok bytes →
      bytes.head? = some p.ddsData.kind.toByte := by
  have hfits := r.always_iff (I := fun _ => True) (P := Agrees) (C := Fits)
    (fun _ _ _ _ _ => trivial)
    (fun m range m' _ hm h => by rw [h.2]; exact agrees_unpack_iff hm h.1) trivial hagrees
  have hintact := r.always_iff (I := fun _ => True) (P := Agrees) (C := Intact)
    (fun _ _ _ _ _ => trivial)
    (fun m range m' _ hm h => by
      rw [h.2, intact_iff hm h.1]
      exact agrees_unpack_iff hm h.1) trivial hagrees
  refine ⟨hintact.symm.trans hfits, fun x hx => ?_,
    fun node d fault hfault => node.handlerRead_error hfault,
    fun p hp bytes hpack => hp.head_pack hpack⟩
  obtain ⟨p, hlong, -⟩ := r.exists_step hx
  exact x.1.regular hlong

theorem agrees_fresh : (fresh 0).Agrees := rfl

/-- Nine bytes that are no payload, behind the type byte of `Discover`. -/
def refused : Range := [0, 128, 128, 128, 128, 128, 128, 128, 128, 128]

/-- A packet of the same type refuses them and is left as it was. -/
theorem agrees_run_iff_refused : (fresh 0).Intact refused := by
  have hrun : Run Unpacks (fresh 0) [(fresh 0, refused)] ((fresh 0).unpack refused).2 :=
    Run.single ⟨by decide, rfl⟩
  obtain ⟨hintact, -⟩ := agrees_run_iff agrees_fresh hrun
  refine hintact.mpr (fun x hx => ?_) _ (List.mem_singleton_self _)
  rw [List.mem_singleton.mp hx]
  exact ⟨.discover, _, rfl, Or.inr rfl⟩

/-- An unknown type byte is logged, and the payload stays; and behind another type byte than that
of the packet, the byte stays when the payload is refused. -/
theorem agrees_run_fails :
    (¬ ∀ (packet packet' : DDSPacket) (trace : List (DDSPacket × Range)), packet.Agrees →
      Run Unpacks packet trace packet' → ∀ x ∈ trace, x.1.Intact x.2) ∧
    ¬ (fresh 0).Intact (3 :: refused) ∧ ¬ (fresh 0).Intact (1 :: refused.tail) := by
  have hunknown : ¬ (fresh 0).Intact (3 :: refused) := by
    intro h
    have hbyte : ((fresh 0).unpack (3 :: refused)).2.header.type
      = ((fresh 0).unpack (3 :: refused)).2.ddsData.kind.toByte := h.agrees
    exact absurd hbyte (by decide)
  have hother : ¬ (fresh 0).Intact (1 :: refused.tail) := by
    intro h
    have hbyte : ((fresh 0).unpack (1 :: refused.tail)).2.header.type
      = ((fresh 0).unpack (1 :: refused.tail)).2.ddsData.kind.toByte := h.agrees
    exact absurd hbyte (by decide)
  refine ⟨fun hclaim => hunknown ?_, hunknown, hother⟩
  have hrun : Run Unpacks (fresh 0) [(fresh 0, 3 :: refused)] ((fresh 0).unpack (3 :: refused)).2 :=
    Run.single ⟨by decide, rfl⟩
  exact hclaim _ _ _ agrees_fresh hrun _ (List.mem_singleton_self _)

end DDSPacket

end Mydds
