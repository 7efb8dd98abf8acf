import BlockAgreement.Block
import BlockAgreement.Config
import BlockAgreement.Json.Shape
import BlockAgreement.Statement

/-! Settings, rounds, headers and statements as records. -/

namespace BlockAgreement.Json

/-- A type whose values are written as records. -/
class Record (α : Type) where
  shape : Shape
  toValue : α → Value
  /-- Makes use of what a record of this shape has. -/
  ofValue? : Value → Option α

def read? (α : Type) [Record α] (text : String) : Option α :=
  ((Record.shape α).scan.whole? text).bind Record.ofValue?

def write {α : Type} [Record α] (a : α) : String := (Record.toValue a).render

namespace Value

def number64? (v : Value) (name : String) : Option UInt64 := do
  return UInt64.ofNat (← (← v.field? name).number?)

def number32? (v : Value) (name : String) : Option UInt32 := do
  return UInt32.ofNat (← (← v.field? name).number?)

def byteVec? {n : Nat} (v : Value) (name : String) : Option (ByteVec n) := do
  ByteVec.ofList? (← (← v.field? name).bytes?)

/-- The value of a field of another record type. -/
def record? {α : Type} [Record α] (v : Value) (name : String) : Option α := do
  Record.ofValue? (← v.field? name)

/-- The value of a field that may be missing or null. -/
def optional? {α : Type} [Record α] (v : Value) (name : String) : Option (Option α) :=
  match v.field? name with
  | none | some .null => some none
  | some w => (Record.ofValue? w).map some

end Value

def uint64 : Shape := .number UInt64.size

def uint32 : Shape := .number UInt32.size

/-- Missing settings have their defaults. -/
instance : Record Config where
  shape := .record true
    [("request_timeout_ms", uint64), ("max_timeout_exponent", uint32),
     ("future_message_max_distance", uint64), ("future_messages_limit", uint64),
     ("early_round_change", .bool)]
  toValue c := .record
    [("request_timeout_ms", .number c.baseTimeout.toNat),
     ("max_timeout_exponent", .number c.maxExponent.toNat),
     ("future_message_max_distance", .number c.horizon.toNat),
     ("future_messages_limit", .number c.bufferLimit.toNat),
     ("early_round_change", .bool c.earlyRoundChange)]
  ofValue? v :=
    let c : Config := {}
    some {
      baseTimeout := (v.number64? "request_timeout_ms").getD c.baseTimeout
      maxExponent := (v.number32? "max_timeout_exponent").getD c.maxExponent
      horizon := (v.number64? "future_message_max_distance").getD c.horizon
      bufferLimit := (v.number64? "future_messages_limit").getD c.bufferLimit
      earlyRoundChange :=
        ((v.field? "early_round_change").bind Value.bool?).getD c.earlyRoundChange }

instance : Record RoundId where
  shape := .record false [("sequence_number", uint64), ("round_number", uint32)]
  toValue r := .record
    [("sequence_number", .number r.height.toNat), ("round_number", .number r.number.toNat)]
  ofValue? v := do return ⟨← v.number64? "sequence_number", ← v.number32? "round_number"⟩

instance : Record Header where
  shape := .record false
    [("parent_hash", .byteVec 32), ("beneficiary", .byteVec 20), ("transactions_root", .byteVec 32),
     ("number", uint64), ("timestamp", uint64), ("extra_data", .bytes)]
  toValue h := .record
    [("parent_hash", .bytes h.parent.toList), ("beneficiary", .bytes h.beneficiary.toList),
     ("transactions_root", .bytes h.root.toList), ("number", .number h.number.toNat),
     ("timestamp", .number h.timestamp.toNat), ("extra_data", .bytes h.extra)]
  ofValue? v := do
    return ⟨← v.byteVec? "parent_hash", ← v.byteVec? "beneficiary",
      ← v.byteVec? "transactions_root", ← v.number64? "number", ← v.number64? "timestamp",
      ← (← v.field? "extra_data").bytes?⟩

instance : Record Claim where
  shape := .record false [("prepared_block_hash", .byteVec 32), ("prepared_round", uint32)]
  toValue c := .record
    [("prepared_block_hash", .bytes c.digest.toList), ("prepared_round", .number c.round.toNat)]
  ofValue? v := do return ⟨← v.byteVec? "prepared_block_hash", ← v.number32? "prepared_round"⟩

instance : Record ProposalStatement where
  shape := .record false [("round_identifier", Record.shape RoundId), ("digest", .byteVec 32)]
  toValue p := .record
    [("round_identifier", Record.toValue p.round), ("digest", .bytes p.digest.toList)]
  ofValue? v := do return ⟨← v.record? "round_identifier", ← v.byteVec? "digest"⟩

instance : Record PrepareStatement where
  shape := .record false [("round_identifier", Record.shape RoundId), ("digest", .byteVec 32)]
  toValue p := .record
    [("round_identifier", Record.toValue p.round), ("digest", .bytes p.digest.toList)]
  ofValue? v := do return ⟨← v.record? "round_identifier", ← v.byteVec? "digest"⟩

instance : Record RoundChangeStatement where
  shape := .record false
    [("round_identifier", Record.shape RoundId),
     ("prepared_round_metadata", .optional (Record.shape Claim))]
  toValue p := .record
    [("round_identifier", Record.toValue p.round),
     ("prepared_round_metadata", (p.claim.map Record.toValue).getD .null)]
  ofValue? v := do
    return ⟨← v.record? "round_identifier", ← v.optional? "prepared_round_metadata"⟩

end BlockAgreement.Json
