import BlockAgreement.Message.Proposal
import BlockAgreement.Message.RoundChange

/-! Messages of all four kinds, written as a frame: the code of the kind and the message. -/

namespace BlockAgreement

inductive Message
  | proposal (m : Proposal)
  | prepare (m : Prepare)
  | commit (m : Commit)
  | roundChange (m : RoundChange)
deriving DecidableEq

namespace Message

def kind : Message → Kind
  | .proposal _ => .proposal
  | .prepare _ => .prepare
  | .commit _ => .commit
  | .roundChange _ => .roundChange

def round : Message → RoundId
  | .proposal m => m.round
  | .prepare m => m.round
  | .commit m => m.round
  | .roundChange m => m.round

variable (S : Scheme)

def author : Message → Except Error Address
  | .proposal m => m.author S
  | .prepare m => m.author S
  | .commit m => m.author S
  | .roundChange m => m.author S

/-- The message without the code of its kind. -/
def body : Message → Bytes
  | .proposal m => m.encode S
  | .prepare m => m.encode
  | .commit m => m.encode
  | .roundChange m => m.encode S

def encode (m : Message) : Bytes := m.kind.code :: m.body S

def decodeBody (b : Bytes) : Kind → Except Error Message
  | .proposal => Message.proposal <$> Proposal.decode S b
  | .prepare => Message.prepare <$> Wire.whole "prepare_message" Signed.read b
  | .commit => Message.commit <$> Wire.whole "commit_message" Signed.read b
  | .roundChange => Message.roundChange <$> RoundChange.decode S b

def decode : Bytes → Except Error Message
  | [] => .error (.malformed "message_code" .emptyMessage)
  | code :: b =>
    match Kind.ofCode? code with
    | some kind => decodeBody S b kind
    | none => .error (.unknownCode code)

/-- Requires that the statements a message carries besides its own have authors. -/
def checkNested : Message → Except Error Unit
  | .proposal m => do
    m.roundChanges.forM fun rc => discard (rc.author S)
    m.prepares.forM fun p => discard (p.author S)
  | .roundChange m => m.prepares.forM fun p => discard (p.author S)
  | .prepare _ | .commit _ => .ok ()

/-- Also requires that every signature of the message has an author. -/
def decodeAuthenticated (b : Bytes) : Except Error Message := do
  let m ← decode S b
  discard (m.author S)
  m.checkNested S
  return m

end Message

end BlockAgreement
