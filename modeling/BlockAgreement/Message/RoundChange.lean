import BlockAgreement.Block
import BlockAgreement.Message.Signed

/-! Round changes. A claim comes with its evidence, the block and the prepares for it; without a
claim there is neither. -/

namespace BlockAgreement

namespace RoundChange

/-- The first prepare that is not for the claimed round and block. -/
def strayPrepare? (c : Claim) (prepares : List Prepare) : Option Reason :=
  prepares.findSome? fun p =>
    if p.statement.round.number ≠ c.round then
      some (.prepareRound p.statement.round.number c.round)
    else if p.statement.digest ≠ c.digest then some .prepareDigest
    else none

/-- What is wrong with the evidence for a claim, with the field to blame. -/
def mismatch? (claim : Option Claim) (block : Option Block) (prepares : List Prepare) :
    Option (String × Reason) :=
  match claim, block with
  | none, some _ => some ("round_change.proposed_block", .blockWithoutClaim)
  | none, none =>
    if prepares.isEmpty then none else some ("round_change.prepares", .preparesWithoutClaim)
  | some _, none => some ("round_change.proposed_block", .claimWithoutBlock)
  | some c, some _ =>
    if prepares.isEmpty then some ("round_change.prepares", .claimWithoutPrepares)
    else (strayPrepare? c prepares).map (("round_change.prepares", ·))

end RoundChange

structure RoundChange where
  signed : Signed RoundChangeStatement
  block : Option Block
  prepares : List Prepare
  matched : RoundChange.mismatch? signed.statement.claim block prepares = none
deriving DecidableEq

namespace RoundChange

def round (rc : RoundChange) : RoundId := rc.signed.statement.round

def claim (rc : RoundChange) : Option Claim := rc.signed.statement.claim

def new? (signed : Signed RoundChangeStatement) (block : Option Block) (prepares : List Prepare) :
    Except Error RoundChange :=
  match h : mismatch? signed.statement.claim block prepares with
  | none => .ok ⟨signed, block, prepares, h⟩
  | some (name, reason) => .error (.malformed name reason)

variable (S : Scheme)

def author (rc : RoundChange) : Except Error Address := rc.signed.author S

def encode (rc : RoundChange) : Bytes :=
  Rlp.encodeList (rc.signed.encode ++
    (match rc.block with
      | some b => b.encode S
      | none => Rlp.emptyList) ++
    Rlp.encodeList (rc.prepares.flatMap Signed.encode))

def decode (b : Bytes) : Except Error RoundChange := do
  let read : Reader Error RoundChange := do
    let (signed, block, prepares) ← Wire.within "round_change_message" do
      let signed ← Signed.read
      let block ← Wire.optional (Wire.field "round_change.proposed_block" (Block.read S))
      let prepares ← Wire.items "round_change.prepares" Signed.read
      return (signed, block, prepares)
    liftM (new? signed block prepares)
  Wire.whole "round_change_message" read b

end RoundChange

end BlockAgreement
