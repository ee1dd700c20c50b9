/-!
# Bytes, faults and the class `Util`

Strings and byte vectors are lists of bytes, as in `std::string` and
`std::vector<std::uint8_t>`.  A call that may not return normally is a `Result`:
the `Fault` says which exception leaves it, or that its behaviour is undefined.

`Util` is `include/utils.h`: the variable-length integers of the packet format and
the printing of a socket address.  A range `[begin, end)` of iterators is the list
of the bytes it covers; `advance` and `slice` form iterators and check them
against `end`, so running past the end is a fault and not a default value.
-/

namespace Mydds

/-- The bytes of a string or of a byte vector. -/
abbrev Bytes := List UInt8

/-- The ways a call can end other than by returning. -/
inductive Fault where
  /-- `std::invalid_argument` with its text -/
  | invalidArgument (what : String)
  /-- `std::runtime_error` with its text -/
  | runtimeError (what : String)
  /-- `std::get` on another alternative of a variant -/
  | badVariantAccess
  /-- undefined: an iterator outside of its range -/
  | outOfRange
  /-- undefined: a null pointer dereferenced -/
  | nullDereference
  /-- a loop that does not end -/
  | diverges
  deriving DecidableEq, Repr

abbrev Result := Except Fault

theorem Result.bind_eq_ok {α β : Type} {x : Result α} {f : α → Result β} {b : β} :
    (x >>= f) = .ok b ↔ ∃ a, x = .ok a ∧ f a = .ok b := by
  cases x with
  | error fault => exact ⟨nofun, fun ⟨_, h, _⟩ => nomatch h⟩
  | ok a => exact ⟨fun h => ⟨a, rfl, h⟩, fun ⟨_, rfl, h⟩ => h⟩

theorem Result.map_eq_ok {α β : Type} {x : Result α} {f : α → β} {b : β} :
    x.map f = .ok b ↔ ∃ a, x = .ok a ∧ f a = b := by
  cases x with
  | error fault => exact ⟨nofun, fun ⟨_, h, _⟩ => nomatch h⟩
  | ok a => exact ⟨fun h => ⟨a, rfl, Except.ok.inj h⟩, fun ⟨_, rfl, h⟩ => congrArg _ h⟩

theorem Result.map_eq_error {α β : Type} {x : Result α} {f : α → β} {fault : Fault} :
    x.map f = .error fault ↔ x = .error fault := by
  cases x with
  | error fault' => exact ⟨fun h => congrArg _ (Except.error.inj h), fun h => h ▸ rfl⟩
  | ok a => exact ⟨nofun, nofun⟩

/-- The bytes of `[begin, end)`. -/
abbrev Range := Bytes

/-- `begin + n` -/
def advance (range : Range) (n : Nat) : Result Range :=
  if n ≤ range.length then .ok (range.drop n) else .error .outOfRange

/-- `std::string(begin + from, begin + from + n)` -/
def slice (range : Range) (start n : Nat) : Result Bytes := do
  let first ← advance range start
  let _ ← advance first n
  .ok (first.take n)

namespace Util

def maxLength : UInt32 := 268435455

def maxBytes : Nat := 4

/-- The `for` loop of `unpack_length` over the rest of the range. -/
def unpackLengthLoop :
    Range → (length multiplier : UInt32) → (processedBytes : Nat) → Result (UInt32 × UInt32)
  | [], _, _, _ => .error (.invalidArgument "Incomplete variable-length encoding.")
  | encodedByte :: it, length, multiplier, processedBytes =>
    let length := length + (encodedByte &&& 127).toUInt32 * multiplier
    if length > maxLength then
      .error (.invalidArgument "Decoded length exceeds maximum MQTT length.")
    else if encodedByte &&& 128 = 0 then
      .ok (UInt32.ofNat (processedBytes + 1), length)
    else
      let multiplier := multiplier * 128
      if processedBytes ≥ maxBytes - 1 then
        .error (.invalidArgument "Variable-length encoding exceeds 4 bytes.")
      else
        unpackLengthLoop it length multiplier (processedBytes + 1)

/-- The count of bytes read and the value of `length`. -/
def unpackLength (range : Range) : Result (UInt32 × UInt32) := unpackLengthLoop range 0 1 0

/-- The `do`-`while` loop of `pack_length`, for at most `fuel` rounds. -/
def packLengthLoop : Nat → UInt32 → Bytes → Result Bytes
  | 0, _, _ => .error .diverges
  | fuel + 1, length, encodedBytes =>
    let encodedByte := (length % 128).toUInt8
    let length := length / 128
    let encodedByte := if length > 0 then encodedByte ||| 128 else encodedByte
    let encodedBytes := encodedBytes ++ [encodedByte]
    if length > 0 then packLengthLoop fuel length encodedBytes else .ok encodedBytes

/-- Five rounds are enough for 32 bits. -/
def packLength (length : UInt32) : Result Bytes :=
  if length > maxLength then
    .error (.invalidArgument "Length exceeds maximum MQTT length.")
  else packLengthLoop 5 length []

end Util

/-! ### Socket addresses -/

/-- `sockaddr_in`: the four bytes of the address and the two of the port, in network
order. -/
structure SockaddrIn where
  sinAddr : UInt8 × UInt8 × UInt8 × UInt8
  sinPort : UInt8 × UInt8
  deriving DecidableEq, Repr

/-- A byte in decimal, without leading zeros. -/
def decimal (b : UInt8) : Bytes :=
  if b < 10 then [48 + b]
  else if b < 100 then [48 + b / 10, 48 + b % 10]
  else [48 + b / 100, 48 + b / 10 % 10, 48 + b % 10]

/-- Dotted decimal. -/
def dotted (addr : UInt8 × UInt8 × UInt8 × UInt8) : Bytes :=
  decimal addr.1 ++ 46 :: (decimal addr.2.1 ++ 46 ::
    (decimal addr.2.2.1 ++ 46 :: decimal addr.2.2.2))

/-- `inet_ntop(AF_INET, ..)`, a null pointer when the text and its terminating zero do not
fit into `size` bytes. -/
def inetNtop (addr : UInt8 × UInt8 × UInt8 × UInt8) (size : Nat) : Option Bytes :=
  if (dotted addr).length + 1 ≤ size then some (dotted addr) else none

def inetAddrstrlen : Nat := 16

def ntohs (port : UInt8 × UInt8) : Nat := port.1.toNat * 256 + port.2.toNat

namespace Util

def sockaddrToIpPort (addr : SockaddrIn) : Result (Bytes × Int) :=
  match inetNtop addr.sinAddr inetAddrstrlen with
  | none => .error (.runtimeError "Failed to convert IP address to string")
  | some ip => .ok (ip, ntohs addr.sinPort)

end Util

theorem length_decimal_le (b : UInt8) : (decimal b).length ≤ 3 := by
  rw [decimal]
  split
  · exact Nat.le_of_ble_eq_true rfl
  · split
    · exact Nat.le_of_ble_eq_true rfl
    · exact Nat.le_of_ble_eq_true rfl

/-- **Every address can be printed**: at most fifteen characters, and room for sixteen. -/
theorem Util.sockaddrToIpPort_eq (addr : SockaddrIn) :
    sockaddrToIpPort addr = .ok (dotted addr.sinAddr, ntohs addr.sinPort) := by
  have h1 := length_decimal_le addr.sinAddr.1
  have h2 := length_decimal_le addr.sinAddr.2.1
  have h3 := length_decimal_le addr.sinAddr.2.2.1
  have h4 := length_decimal_le addr.sinAddr.2.2.2
  have hfit : (dotted addr.sinAddr).length + 1 ≤ inetAddrstrlen := by
    simp only [dotted, List.length_append, List.length_cons, inetAddrstrlen]
    omega
  rw [sockaddrToIpPort, inetNtop, if_pos hfit]

end Mydds
