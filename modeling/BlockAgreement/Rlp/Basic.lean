import BlockAgreement.Bytes

/-! Recursive length prefixes: an item is a byte string or a list, written as a header that tells
which of the two it is and how long its payload is. Every item has exactly one written form. -/

namespace BlockAgreement.Rlp

/-- Why a byte string does not start with a well-formed item of the kind asked for. -/
inductive Fault
  | overflow
  | leadingZero
  | inputTooShort
  | nonCanonicalByte
  | nonCanonicalSize
  | unexpectedLength
  | unexpectedString
  | unexpectedList
  | listLength (got expected : Nat)
  /-- A well-formed item that the reader of a larger structure refuses, in its words. -/
  | refused (text : String)
deriving DecidableEq

def Fault.message : Fault → String
  | .overflow => "overflow"
  | .leadingZero => "leading zero"
  | .inputTooShort => "input too short"
  | .nonCanonicalByte => "non-canonical single byte"
  | .nonCanonicalSize => "non-canonical size"
  | .unexpectedLength => "unexpected length"
  | .unexpectedString => "unexpected string"
  | .unexpectedList => "unexpected list"
  | .listLength got expected => s!"unexpected list length (got {got}, expected {expected})"
  | .refused text => text

inductive Kind
  | string
  | list
deriving DecidableEq

/-- The first byte of an empty item. -/
def Kind.code : Kind → Nat
  | .string => 0x80
  | .list => 0xc0

/-- Lengths up to 55 are added to the code; of longer ones the code tells the number of digits. -/
def header (kind : Kind) (length : Nat) : Bytes :=
  if length < 56 then [UInt8.ofNat (kind.code + length)]
  else
    let digits := Bytes.minimal length
    UInt8.ofNat (kind.code + 55 + digits.length) :: digits

/-- A byte below `0x80` is its own written form. -/
def encodeBytes (b : Bytes) : Bytes :=
  match b with
  | [x] => if x < 0x80 then [x] else [0x81, x]
  | _ => header .string b.length ++ b

def encodeNat (k : Nat) : Bytes := encodeBytes (Bytes.minimal k)

/-- A list around items that are already written. -/
def encodeList (payload : Bytes) : Bytes := header .list payload.length ++ payload

/-- The written form of the empty list, which also stands for an absent value. -/
def emptyList : Bytes := [0xc0]

end BlockAgreement.Rlp
