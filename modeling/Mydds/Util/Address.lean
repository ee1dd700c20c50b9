import Mydds.Util
import Mathlib.Data.Fintype.Basic
import Mathlib.Data.List.TakeWhile

/-!
# Addresses as text

`include/address.h`, and `inet_pton` for `AF_INET`.  A peer is listed as the text and the number
that `Util::sockaddr_to_ip_port` makes of a socket address.  `address_roundtrip` says that nothing
is lost on the way: `toSockAddr` makes the same socket address of them again, and what it accepts as
an address is exactly what `sockaddr_to_ip_port` prints.  So two peers that are listed alike are the
same, `publisherAt_injective`.

`inet_pton` reads one byte after another.  What it has read is the text of the numbers it has got,
which is the invariant of its loop, `inetPtonLoop_text`.
-/

namespace Mydds

/-! ### `inet_pton` -/

/-- A digit behind the digits of a number so far: no leading zero, and at most 255. -/
def appendDigit : Option UInt8 → UInt8 → Option UInt8
  | none, c => some (c - 48)
  | some b, c =>
    if b = 0 then none
    else if b.toNat * 10 + (c.toNat - 48) > 255 then none
    else some (b * 10 + (c - 48))

/-- The loop of `inet_pton`, with the numbers that are complete and the one that is being read. -/
def inetPtonLoop : Bytes → List UInt8 → Option UInt8 → Option (List UInt8)
  | [], octets, current => current.map fun b => octets ++ [b]
  | c :: text, octets, current =>
    if 48 ≤ c ∧ c ≤ 57 then
      match appendDigit current c with
      | none => none
      | some b => inetPtonLoop text octets (some b)
    else
      match current with
      | none => none
      | some b =>
        -- a dot behind a number that is not the last one
        if c = 46 ∧ octets.length + 1 < 4 then inetPtonLoop text (octets ++ [b]) none else none

/-- `inet_pton(AF_INET, ..)` on a text without a zero byte, `none` for the result 0. -/
def inetPton (text : Bytes) : Option (UInt8 × UInt8 × UInt8 × UInt8) :=
  match inetPtonLoop text [] none with
  | some [a, b, c, d] => some (a, b, c, d)
  | _ => none

/-- `c_str()` ends at the first zero byte. -/
def cStr (s : Bytes) : Bytes := s.takeWhile (· ≠ 0)

/-- `htons` -/
def htons (port : UInt16) : UInt8 × UInt8 :=
  (UInt8.ofNat (port.toNat / 256), UInt8.ofNat port.toNat)

/-! ### The classes -/

/-- `inet_pton(..) != 0` -/
def isValidAddress (address : Bytes) : Bool := (inetPton (cStr address)).isSome

/-- `sin_addr` is what the memory held before if `inet_pton` fails. -/
def sockAddrOf (address : Bytes) (port : UInt16) (before : UInt8 × UInt8 × UInt8 × UInt8) :
    SockaddrIn :=
  ⟨(inetPton (cStr address)).getD before, htons port⟩

structure UnicastAddress where
  address : Bytes
  port : UInt16

structure MulticastAddress where
  address : Bytes
  port : UInt16

def UnicastAddress.isValid (a : UnicastAddress) : Bool := isValidAddress a.address

def UnicastAddress.toSockAddr (a : UnicastAddress) (before : UInt8 × UInt8 × UInt8 × UInt8) :
    SockaddrIn := sockAddrOf a.address a.port before

def MulticastAddress.isValid (a : MulticastAddress) : Bool := isValidAddress a.address

def MulticastAddress.toSockAddr (a : MulticastAddress) (before : UInt8 × UInt8 × UInt8 × UInt8) :
    SockaddrIn := sockAddrOf a.address a.port before

/-! ### Numbers -/

theorem exists_digit {c : UInt8} (hc : 48 ≤ c ∧ c ≤ 57) :
    ∃ k : Fin 10, c = UInt8.ofNat (48 + k.val) := by
  have hlow : 48 ≤ c.toNat := UInt8.le_iff_toNat_le.mp hc.1
  have hhigh : c.toNat ≤ 57 := UInt8.le_iff_toNat_le.mp hc.2
  refine ⟨⟨c.toNat - 48, by omega⟩, ?_⟩
  dsimp only
  rw [Nat.add_sub_cancel' hlow, UInt8.ofNat_toNat]

theorem decimal_append_digit : ∀ n : Fin 26, 0 < n.val → ∀ k : Fin 10, n.val * 10 + k.val ≤ 255 →
    decimal (UInt8.ofNat n.val * 10 + (UInt8.ofNat (48 + k.val) - 48))
      = decimal (UInt8.ofNat n.val) ++ [UInt8.ofNat (48 + k.val)] := by
  decide

theorem decimal_digit : ∀ k : Fin 10,
    decimal (UInt8.ofNat (48 + k.val) - 48) = [UInt8.ofNat (48 + k.val)] := by
  decide

theorem decimal_of_appendDigit {current : Option UInt8} {c b : UInt8} (hc : 48 ≤ c ∧ c ≤ 57)
    (h : appendDigit current c = some b) : decimal b = current.elim [] decimal ++ [c] := by
  obtain ⟨k, rfl⟩ := exists_digit hc
  cases current with
  | none =>
    obtain rfl := Option.some.inj h
    exact decimal_digit k
  | some b₀ =>
    rw [appendDigit] at h
    split at h
    · cases h
    · split at h
      · cases h
      · rename_i hzero hsize
        obtain rfl := Option.some.inj h
        have hk : (UInt8.ofNat (48 + k.val)).toNat = 48 + k.val := by
          rw [UInt8.toNat_ofNat']
          omega
        rw [hk] at hsize
        have hpos : 0 < b₀.toNat :=
          Nat.pos_of_ne_zero fun h0 => hzero (UInt8.toNat_inj.mp (h0.trans rfl))
        have hdigits := decimal_append_digit ⟨b₀.toNat, by omega⟩ hpos k (by dsimp only; omega)
        dsimp only at hdigits
        rwa [UInt8.ofNat_toNat] at hdigits

/-- The digits of a number, one after another. -/
def readDigits : Option UInt8 → Bytes → Option (Option UInt8)
  | current, [] => some current
  | current, c :: digits =>
    if 48 ≤ c ∧ c ≤ 57 then
      match appendDigit current c with
      | none => none
      | some b => readDigits (some b) digits
    else none

theorem readDigits_decimal : ∀ n : Fin 256, readDigits none (decimal (UInt8.ofNat n.val))
    = some (some (UInt8.ofNat n.val)) := by
  decide +kernel

theorem inetPtonLoop_of_readDigits {digits : Bytes} (text : Bytes) (octets : List UInt8) :
    ∀ {current current' : Option UInt8}, readDigits current digits = some current' →
      inetPtonLoop (digits ++ text) octets current = inetPtonLoop text octets current' := by
  induction digits with
  | nil =>
    intro current current' h
    rw [Option.some.inj h, List.nil_append]
  | cons c digits ih =>
    intro current current' h
    rw [readDigits] at h
    split at h
    · rename_i hc
      rw [List.cons_append, inetPtonLoop.eq_def]
      dsimp only
      rw [if_pos hc]
      cases hb : appendDigit current c with
      | none =>
        rw [hb] at h
        cases h
      | some b =>
        rw [hb] at h
        exact ih h
    · cases h

theorem inetPtonLoop_decimal (b : UInt8) (text : Bytes) (octets : List UInt8) :
    inetPtonLoop (decimal b ++ text) octets none = inetPtonLoop text octets (some b) := by
  have hread := readDigits_decimal ⟨b.toNat, b.toNat_lt⟩
  dsimp only at hread
  rw [UInt8.ofNat_toNat] at hread
  exact inetPtonLoop_of_readDigits text octets hread

/-! ### Addresses -/

/-- **What is printed is read.** -/
theorem inetPton_dotted (addr : UInt8 × UInt8 × UInt8 × UInt8) :
    inetPton (dotted addr) = some addr := by
  obtain ⟨a, b, c, d⟩ := addr
  have hlast := inetPtonLoop_decimal d [] [a, b, c]
  rw [List.append_nil] at hlast
  rw [inetPton, dotted, inetPtonLoop_decimal]
  simp [inetPtonLoop, inetPtonLoop_decimal, hlast]

/-- The text of the numbers that are complete, and of the one that is being read. -/
def textOf (octets : List UInt8) (current : Option UInt8) : Bytes :=
  octets.flatMap (fun b => decimal b ++ [46]) ++ current.elim [] decimal

theorem inetPtonLoop_text : ∀ {text : Bytes} {octets : List UInt8} {current : Option UInt8}
    {all : List UInt8}, inetPtonLoop text octets current = some all →
    octets.length < 4 → ∃ front last, all = front ++ [last] ∧ front.length < 4 ∧
      textOf octets current ++ text = textOf front (some last)
  | [], octets, current, all, h, hlength => by
    obtain ⟨b, rfl, rfl⟩ := Option.map_eq_some_iff.mp h
    exact ⟨octets, b, rfl, hlength, List.append_nil _⟩
  | c :: text, octets, current, all, h, hlength => by
    rw [inetPtonLoop.eq_def] at h
    dsimp only at h
    split at h
    · rename_i hc
      cases hb : appendDigit current c with
      | none => rw [hb] at h; cases h
      | some b =>
        rw [hb] at h
        obtain ⟨front, last, hall, hfront, htext⟩ := inetPtonLoop_text h hlength
        refine ⟨front, last, hall, hfront, ?_⟩
        rw [← htext, textOf, textOf, Option.elim_some, decimal_of_appendDigit hc hb]
        simp
    · cases current with
      | none => cases h
      | some b =>
        dsimp only at h
        split at h
        · rename_i hdot
          obtain ⟨rfl, hmore⟩ := hdot
          obtain ⟨front, last, hall, hfront, htext⟩ := inetPtonLoop_text h (by simpa using hmore)
          refine ⟨front, last, hall, hfront, ?_⟩
          rw [← htext, textOf, textOf]
          simp
        · cases h

/-- **What is read is what is printed.** -/
theorem inetPton_eq_some_iff {text : Bytes} {addr : UInt8 × UInt8 × UInt8 × UInt8} :
    inetPton text = some addr ↔ text = dotted addr := by
  refine ⟨fun h => ?_, fun h => h ▸ inetPton_dotted addr⟩
  rw [inetPton] at h
  split at h
  · rename_i a b c d hall
    obtain rfl := Option.some.inj h
    obtain ⟨front, last, hfront, -, htext⟩ := inetPtonLoop_text hall (by decide)
    have hlast : front = [a, b, c] ∧ last = d := by
      have happend : [a, b, c] ++ [d] = front ++ [last] := hfront
      obtain ⟨h1, h2⟩ := List.append_inj' happend rfl
      exact ⟨h1.symm, (List.cons.inj h2).1.symm⟩
    rw [hlast.1, hlast.2] at htext
    simpa [textOf, dotted] using htext
  · cases h

theorem dotted_injective : Function.Injective dotted := by
  intro a b h
  exact Option.some.inj ((inetPton_dotted a).symm.trans (h ▸ inetPton_dotted b))

theorem zero_not_mem_decimal : ∀ n : Fin 256, 0 ∉ decimal (UInt8.ofNat n.val) := by
  decide +kernel

theorem cStr_dotted (addr : UInt8 × UInt8 × UInt8 × UInt8) : cStr (dotted addr) = dotted addr := by
  have hdecimal : ∀ b c, c ∈ decimal b → c ≠ 0 := by
    rintro b _ hc rfl
    have hzero := zero_not_mem_decimal ⟨b.toNat, b.toNat_lt⟩
    dsimp only at hzero
    rw [UInt8.ofNat_toNat] at hzero
    exact hzero hc
  refine List.takeWhile_eq_self_iff.mpr fun c hc => ?_
  simp only [dotted, List.mem_append, List.mem_cons] at hc
  have hne : c ≠ 0 := by
    rcases hc with h | rfl | h | rfl | h | rfl | h
    · exact hdecimal _ c h
    · decide
    · exact hdecimal _ c h
    · decide
    · exact hdecimal _ c h
    · decide
    · exact hdecimal _ c h
  simpa using hne

theorem ntohs_lt (port : UInt8 × UInt8) : ntohs port < 65536 := by
  have h1 := port.1.toNat_lt
  have h2 := port.2.toNat_lt
  rw [ntohs]
  omega

theorem htons_ntohs (port : UInt8 × UInt8) : htons (UInt16.ofNat (ntohs port)) = port := by
  have h1 := port.1.toNat_lt
  have h2 := port.2.toNat_lt
  have hport : (UInt16.ofNat (ntohs port)).toNat = ntohs port := by
    rw [UInt16.toNat_ofNat']
    exact Nat.mod_eq_of_lt (ntohs_lt port)
  rw [htons, hport, ntohs]
  refine Prod.ext (UInt8.toNat_inj.mp ?_) (UInt8.toNat_inj.mp ?_)
  · rw [UInt8.toNat_ofNat']
    omega
  · rw [UInt8.toNat_ofNat']
    omega

theorem ntohs_htons (port : UInt16) : ntohs (htons port) = port.toNat := by
  have h := port.toNat_lt
  rw [ntohs, htons, UInt8.toNat_ofNat', UInt8.toNat_ofNat']
  omega

/-- **Two socket addresses with the same text and number are the same.** -/
theorem sockaddrToIpPort_injective : Function.Injective Util.sockaddrToIpPort := by
  intro a b h
  rw [Util.sockaddrToIpPort_eq, Util.sockaddrToIpPort_eq] at h
  obtain ⟨htext, hport⟩ := Prod.mk.inj (Except.ok.inj h)
  have hsame : a.sinPort = b.sinPort := by
    rw [← htons_ntohs a.sinPort, ← htons_ntohs b.sinPort, Int.ofNat_inj.mp hport]
  cases a
  cases b
  rw [SockaddrIn.mk.injEq]
  exact ⟨dotted_injective htext, hsame⟩

theorem sockAddrOf_printed (addr : SockaddrIn) (before : UInt8 × UInt8 × UInt8 × UInt8) :
    isValidAddress (dotted addr.sinAddr) = true ∧
      sockAddrOf (dotted addr.sinAddr) (UInt16.ofNat (ntohs addr.sinPort)) before = addr := by
  rw [isValidAddress, sockAddrOf, cStr_dotted, inetPton_dotted, htons_ntohs]
  exact ⟨rfl, rfl⟩

theorem isValidAddress_iff (address : Bytes) (port : UInt16)
    (before : UInt8 × UInt8 × UInt8 × UInt8) : isValidAddress address = true ↔
      Util.sockaddrToIpPort (sockAddrOf address port before) = .ok (cStr address, port.toNat) := by
  rw [isValidAddress, sockAddrOf, Util.sockaddrToIpPort_eq, ntohs_htons]
  cases h : inetPton (cStr address) with
  | some addr =>
    rw [Option.getD_some, inetPton_eq_some_iff.mp h]
    simp
  | none =>
    rw [Option.getD_none]
    refine iff_of_false (by simp) fun he => ?_
    have htext := (Prod.mk.inj (Except.ok.inj he)).1
    rw [← htext, inetPton_dotted] at h
    cases h

/-- **Addresses survive as text.**  Both classes make every socket address again of what
`sockaddr_to_ip_port` makes of it, and call it valid; and they call a text valid iff
`sockaddr_to_ip_port` makes the text and the port again of what `toSockAddr` makes of them. -/
theorem address_roundtrip (before : UInt8 × UInt8 × UInt8 × UInt8) :
    (∀ addr, ∃ ip port, Util.sockaddrToIpPort addr = .ok (ip, port) ∧
      (UnicastAddress.mk ip (UInt16.ofNat port.toNat)).isValid = true ∧
      (UnicastAddress.mk ip (UInt16.ofNat port.toNat)).toSockAddr before = addr ∧
      (MulticastAddress.mk ip (UInt16.ofNat port.toNat)).isValid = true ∧
      (MulticastAddress.mk ip (UInt16.ofNat port.toNat)).toSockAddr before = addr) ∧
    (∀ a : UnicastAddress, a.isValid = true ↔
      Util.sockaddrToIpPort (a.toSockAddr before) = .ok (cStr a.address, a.port.toNat)) ∧
    ∀ a : MulticastAddress, a.isValid = true ↔
      Util.sockaddrToIpPort (a.toSockAddr before) = .ok (cStr a.address, a.port.toNat) := by
  refine ⟨fun addr => ?_, fun a => isValidAddress_iff a.address a.port before,
    fun a => isValidAddress_iff a.address a.port before⟩
  obtain ⟨hvalid, hsame⟩ := sockAddrOf_printed addr before
  exact ⟨_, _, Util.sockaddrToIpPort_eq addr, hvalid, hsame, hvalid, hsame⟩

/-- The multicast group and its port. -/
example : (MulticastAddress.mk [50, 50, 52, 46, 49, 46, 49, 46, 49] 5007).toSockAddr (0, 0, 0, 0)
    = ⟨(224, 1, 1, 1), (19, 143)⟩ := by decide

end Mydds
