import BlockAgreement.Json.Token

/-! Values of records, the shapes that say which values a place may hold, and their texts. A record
is an object with named fields, in any order and among others, or an array of its fields. -/

namespace BlockAgreement.Json

inductive Value
  | null
  | bool (b : Bool)
  | number (n : Nat)
  | bytes (b : Bytes)
  | record (fields : List (String × Value))

inductive Shape
  | bool
  /-- A natural number below a bound. -/
  | number (bound : Nat)
  | bytes
  /-- A byte string of known length. -/
  | byteVec (length : Nat)
  /-- A value or null. -/
  | optional (shape : Shape)
  /-- Named fields. As an array, a `short` record may lack the last ones. -/
  | record (short : Bool) (fields : List (String × Shape))

namespace Scan

def bool : Scan Bool := do
  match ← token with
  | .bool b => return b
  | _ => failure

def natural (bound : Nat) : Scan Nat := do
  match ← token with
  | .number (some n) => if n < bound then return n else failure
  | _ => failure

def byte : Scan UInt8 := UInt8.ofNat <$> natural 256

def hexText : Scan Bytes := do
  match ← token with
  | .text s => (Bytes.ofHex? s).getM
  | _ => failure

def startsWith (c : Char) : Scan Bool := do
  blanks
  return (← peek?) = some c

/-- Hexadecimal text or an array of bytes. -/
def bytes : Scan Bytes := do
  if ← startsWith '[' then
    expect '['
    List.reverse <$> entries ']' (fun b => do return (← byte) :: b) []
  else hexText

/-- Hexadecimal text or an array of `n` bytes. After the last byte one attempt is made to read
another. It must not succeed; where it fails the array may still end. -/
def byteVec (n : Nat) : Scan Bytes := do
  if ← startsWith '[' then
    expect '['
    let b ← (List.range n).mapM fun i => do
      unless ← hasEntry ']' (i = 0) do failure
      byte
    let excess ← attempt do
      unless ← hasEntry ']' (n = 0) do failure
      byte
    if excess.isSome then failure
    ending ']'
    return b
  else
    let b ← hexText
    if b.length ≠ n then failure
    return b

def optional (value : Scan Value) : Scan Value := do
  if ← startsWith 'n' then
    word "null"
    return .null
  else value

/-- The fields that an object has, none of them twice. Others are passed over. -/
def object (fields : List (String × Scan Value)) : Scan (List (String × Value)) := do
  expect '\x7b'
  entries '\x7d' (fun found => do
    expect '"'
    let name ← quoted unicode
    ending ':'
    match fields.lookup name with
    | none =>
      skip
      return found
    | some value =>
      if (found.lookup name).isSome then failure
      return found ++ [(name, ← value)]) []

/-- The fields in their order. -/
def array (short : Bool) (fields : List (String × Scan Value)) :
    Scan (List (String × Value)) := do
  expect '['
  let found ← fields.foldlM (fun found (name, value) => do
    if ← hasEntry ']' found.isEmpty then return found ++ [(name, ← value)]
    else if short then return found
    else failure) []
  ending ']'
  return found

def record (short : Bool) (fields : List (String × Scan Value)) : Scan Value := do
  if ← startsWith '[' then .record <$> array short fields else .record <$> object fields

end Scan

mutual

def Shape.scan : Shape → Scan Value
  | .bool => .bool <$> Scan.bool
  | .number bound => .number <$> Scan.natural bound
  | .bytes => .bytes <$> Scan.bytes
  | .byteVec n => .bytes <$> Scan.byteVec n
  | .optional shape => Scan.optional shape.scan
  | .record short fields => Scan.record short (scanFields fields)

def scanFields : List (String × Shape) → List (String × Scan Value)
  | [] => []
  | (name, shape) :: fields => (name, shape.scan) :: scanFields fields

end

/-! ### Fields -/

namespace Value

/-- The value of a field that is there. -/
def field? (v : Value) (name : String) : Option Value :=
  match v with
  | .record fields => fields.lookup name
  | _ => none

def bool? : Value → Option Bool
  | .bool b => some b
  | _ => none

def number? : Value → Option Nat
  | .number n => some n
  | _ => none

def bytes? : Value → Option Bytes
  | .bytes b => some b
  | _ => none

end Value

/-! ### Writing -/

def quote (s : String) : String := "\"" ++ s ++ "\""

mutual

/-- The text without blanks. -/
def Value.render : Value → String
  | .null => "null"
  | .bool b => if b then "true" else "false"
  | .number n => toString n
  | .bytes b => quote (Bytes.toHex b)
  | .record fields => "\x7b" ++ ",".intercalate (renderFields fields) ++ "\x7d"

def renderFields : List (String × Value) → List String
  | [] => []
  | (name, v) :: fields => (quote name ++ ":" ++ v.render) :: renderFields fields

end

end BlockAgreement.Json
