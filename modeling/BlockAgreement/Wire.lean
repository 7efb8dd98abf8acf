import BlockAgreement.Rlp.Reader
import BlockAgreement.Signature

/-! Reading the fields of a message. Each failure names the field that could not be read, and no
byte of a list may be left over. -/

namespace BlockAgreement.Wire

variable {α : Type}

/-- A field that is read by the rules of the format alone. -/
def field (name : String) (r : Reader Rlp.Fault α) : Reader Error α :=
  r.mapError fun fault => .malformed name (.rlp fault)

/-- The payload of a list. -/
def list (name : String) : Reader Error Bytes := do
  match ← field name Rlp.item with
  | (.list, payload) => return payload
  | (.string, _) => throw (.malformed name .notList)

def done (name : String) (b : Bytes) : Except Error Unit :=
  if b.isEmpty then .ok () else .error (.malformed name (.trailing b.length))

/-- Reads all of a byte string. -/
def whole (name : String) (r : Reader Error α) (b : Bytes) : Except Error α := do
  let (a, rest) ← r.run b
  done name rest
  return a

/-- A list whose payload is read by `fields`. -/
def within (name : String) (fields : Reader Error α) : Reader Error α := do
  liftM (whole name fields (← list name))

/-- A list of like items. -/
def items (name : String) (each : Reader Error α) : Reader Error (List α) := do
  liftM (each.many (← list name))

/-- An empty list in the place of the value means that there is none. -/
def optional (r : Reader Error α) : Reader Error (Option α) := do
  match ← get with
  | 0xc0 :: rest =>
    set rest
    return none
  | _ => some <$> r

def roundId : Reader Error RoundId := do
  let height ← field "round.sequence_number" Rlp.uint64
  let number ← field "round.round_number" Rlp.uint32
  return ⟨height, number⟩

def signature (name : String) : Reader Error Signature := do
  match ← field name Rlp.item with
  | (.list, _) => throw (.malformed name .notString)
  | (.string, payload) =>
    match Signature.ofBytes? payload with
    | .ok g => return g
    | .error reason => throw (.malformed name reason)

end BlockAgreement.Wire

namespace BlockAgreement

/-- The two numbers one after the other, with no list of their own around them. -/
def RoundId.encode (r : RoundId) : Bytes :=
  Rlp.encodeNat r.height.toNat ++ Rlp.encodeNat r.number.toNat

def Signature.encode (g : Signature) : Bytes := Rlp.encodeBytes g.toBytes

end BlockAgreement
