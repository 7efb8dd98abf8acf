import BlockAgreement.Block
import BlockAgreement.Message.Signed

/-! Proposals. Only the block's digest is signed; the block travels beside it, and with it what
justifies a round above the first: the round changes of a quorum, and the prepares of the block they
bind the proposer to, if any. -/

namespace BlockAgreement

structure Proposal where
  signed : Signed ProposalStatement
  block : Block
  roundChanges : List (Signed RoundChangeStatement)
  prepares : List Prepare
  /-- Round changes come with the rounds above the first, and only with them. -/
  roundChanges_eq_nil_iff : roundChanges = [] ↔ signed.statement.round.number = 0
deriving DecidableEq

namespace Proposal

def round (p : Proposal) : RoundId := p.signed.statement.round

def digest (p : Proposal) : Digest := p.signed.statement.digest

def new? (signed : Signed ProposalStatement) (block : Block)
    (roundChanges : List (Signed RoundChangeStatement)) (prepares : List Prepare) :
    Except Error Proposal :=
  if h : roundChanges = [] ↔ signed.statement.round.number = 0 then
    .ok ⟨signed, block, roundChanges, prepares, h⟩
  else
    let number := signed.statement.round.number
    .error (.malformed "proposal.round_changes"
      (if number = 0 then .justifiedRoundZero else .unjustified number))

variable (S : Scheme)

def author (p : Proposal) : Except Error Address := p.signed.author S

def encode (p : Proposal) : Bytes :=
  Rlp.encodeList (p.signed.encode ++ p.block.encode S ++
    Rlp.encodeList (Rlp.encodeList (p.roundChanges.flatMap Signed.encode) ++
      Rlp.encodeList (p.prepares.flatMap Signed.encode)))

def decode (b : Bytes) : Except Error Proposal := do
  let body ← Wire.whole "proposal_message" (Wire.list "proposal_message") b
  let (signed, block, certificates) ← Wire.whole "proposal_message" (do
    let signed ← Signed.read
    let block ← Wire.field "proposal.block" (Block.read S)
    let certificates ← Wire.list "proposal.certificates"
    return (signed, block, certificates)) body
  let (roundChanges, prepares) ← Wire.whole "proposal.certificates" (do
    let roundChanges ← Wire.items "proposal.round_changes" Signed.read
    let prepares ← Wire.items "proposal.prepares" Signed.read
    return (roundChanges, prepares)) certificates
  new? signed block roundChanges prepares

end Proposal

end BlockAgreement
