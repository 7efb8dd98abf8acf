import BlockAgreement.Rlp.Basic

/-! Readers take a value from the front of a byte string and leave the rest. They accept only what
the encoders write: lengths and numbers without leading zeros, short forms where they suffice. -/

namespace BlockAgreement

/-- Takes a value from the front of a byte string, or fails. -/
abbrev Reader (ε α : Type) := StateT Bytes (Except ε) α

namespace Reader

variable {ε α : Type}

def mapError {ε' : Type} (f : ε → ε') (r : Reader ε α) : Reader ε' α := fun b =>
  (r.run b).mapError f

/-- Reads one value after another until nothing is left. A reader that takes nothing ends it. -/
def many (each : Reader ε α) (b : Bytes) : Except ε (List α) :=
  if b.isEmpty then .ok []
  else
    match each.run b with
    | .error e => .error e
    | .ok (a, rest) =>
      if rest.length < b.length then (many each rest).map (a :: ·) else .ok [a]
termination_by b.length

end Reader

namespace Rlp

/-- The first item of a byte string: its kind and payload. -/
def item : Reader Fault (Kind × Bytes) := do
  match ← get with
  | [] => throw .inputTooShort
  | x :: rest =>
    let code := x.toNat
    if code < 0x80 then
      set rest
      return (.string, [x])
    else if code < 0xb8 then
      match code - 0x80, rest with
      | 1, [] => throw .inputTooShort
      | 1, y :: _ => if y < 0x80 then throw .nonCanonicalByte else short .string 1 rest
      | length, _ => short .string length rest
    else if code < 0xc0 then long .string (code - 0xb7) rest
    else if code < 0xf8 then short .list (code - 0xc0) rest
    else long .list (code - 0xf7) rest
where
  /-- A payload of known length. -/
  short (kind : Kind) (length : Nat) (b : Bytes) : Reader Fault (Kind × Bytes) := do
    if b.length < length then throw .inputTooShort
    set (b.drop length)
    return (kind, b.take length)
  /-- A payload after the digits of its length. -/
  long (kind : Kind) (digits : Nat) (b : Bytes) : Reader Fault (Kind × Bytes) := do
    if b.length < digits then throw .inputTooShort
    if b.head? = some 0 then throw .leadingZero
    let length := Bytes.toNat (b.take digits)
    if length < 56 then throw .nonCanonicalSize
    short kind length (b.drop digits)

def string : Reader Fault Bytes := do
  match ← item with
  | (.string, payload) => return payload
  | (.list, _) => throw .unexpectedList

def list : Reader Fault Bytes := do
  match ← item with
  | (.list, payload) => return payload
  | (.string, _) => throw .unexpectedString

/-- A number of at most `width` bytes. -/
def nat (width : Nat) : Reader Fault Nat := do
  let digits ← string
  if width < digits.length then throw .overflow
  if digits.head? = some 0 then throw .leadingZero
  return Bytes.toNat digits

def uint64 : Reader Fault UInt64 := UInt64.ofNat <$> nat 8

def uint32 : Reader Fault UInt32 := UInt32.ofNat <$> nat 4

/-- A string of exactly `n` bytes. -/
def fixed (n : Nat) : Reader Fault (ByteVec n) := do
  match ByteVec.ofList? (← string) with
  | some v => return v
  | none => throw .unexpectedLength

/-- The items of a list, each read in the same way. -/
def listOf {α : Type} (each : Reader Fault α) : Reader Fault (List α) := do
  liftM (each.many (← list))

/-- A list with a fixed sequence of fields. The fields are read from what follows the header, and
only then is the length they took compared with the header's. -/
def record {α : Type} (fields : Reader Fault α) : Reader Fault α := do
  let payload ← list
  let rest ← get
  set (payload ++ rest)
  let a ← fields
  let taken := payload.length + rest.length - (← get).length
  if taken ≠ payload.length then throw (.listLength taken payload.length)
  return a

end Rlp

end BlockAgreement
