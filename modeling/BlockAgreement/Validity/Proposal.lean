import BlockAgreement.Message.Proposal
import BlockAgreement.Validity.Votes

/-! When a proposal is taken: it comes from the member whose turn it is, its block is the signed
one and has the right number, and above round 0 a quorum moved to the round. If any of the round
changes claims a prepared block, the proposal is for the block of the highest claim and proves
that claim. -/

namespace BlockAgreement.Committee

variable (S : Scheme) (C : Committee)

/-- Adds the author of a round change to this round to those before it. -/
def admitRoundChange (round : RoundId) (authors : List Address)
    (m : Signed RoundChangeStatement) : Except Error (List Address) := do
  if m.statement.round ≠ round then
    throw (.invalid (.roundChangeFor m.statement.round round))
  if let some c := m.statement.claim then
    if round.number ≤ c.round then throw (.invalid (.claimTooLate c.round round.number))
  let a ← C.author S m
  if authors.contains a then throw (.invalid (.repeatedRoundChange a))
  return a :: authors

/-- Requires the prepares that the claims of the round changes ask for. -/
def checkClaims (p : Proposal) : Except Error Unit := do
  match ← Claim.highest? (p.roundChanges.filterMap (·.statement.claim)) with
  | some c =>
    if p.digest ≠ c.digest then throw (.invalid (.otherBlock c.digest p.digest))
    C.checkPrepares S p.prepares { p.round with number := c.round } c.digest
  | none => if ¬ p.prepares.isEmpty then throw (.invalid .preparesUnclaimed)

def checkJustification (p : Proposal) : Except Error Unit := do
  if p.round.number = 0 then
    if ¬ p.prepares.isEmpty then throw (.invalid .preparesAtRoundZero)
  else
    let authors ← p.roundChanges.foldlM (C.admitRoundChange S p.round) []
    if authors.length < C.quorum then
      throw (.invalid (.fewRoundChanges authors.length C.quorum))
    C.checkClaims S p

/-- The author of a proposal that members may answer. -/
def checkProposal (p : Proposal) : Except Error Address := do
  let a ← C.author S p.signed
  if p.round.height ≠ C.height then
    throw (.invalid (.proposalHeight p.round.height C.height))
  let proposer ← C.proposer p.round
  if a ≠ proposer then throw (.invalid (.notProposer p.round a proposer))
  let digest := S.digest p.block
  if digest ≠ p.digest then throw (.invalid (.proposalDigest digest p.digest))
  if p.block.number ≠ p.round.height then
    throw (.invalid (.blockNumber p.block.number p.round.height))
  C.checkJustification S p
  return a

end BlockAgreement.Committee
