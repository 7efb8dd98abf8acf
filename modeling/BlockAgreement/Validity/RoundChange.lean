import BlockAgreement.Message.RoundChange
import BlockAgreement.Validity.Votes

/-! When a round change is taken: it comes from a member, is for the height, and what it claims to
be prepared is proved by the block and the prepares that it carries. -/

namespace BlockAgreement.Committee

variable (S : Scheme) (C : Committee)

def checkClaim (rc : RoundChange) (c : Claim) (block : Block) : Except Error Unit := do
  if rc.round.number ≤ c.round then throw (.invalid (.claimNotBelow c.round rc.round.number))
  let digest := S.digest block
  if digest ≠ c.digest then throw (.invalid (.claimedBlock digest c.digest))
  if block.number ≠ rc.round.height then
    throw (.invalid (.blockNumber block.number rc.round.height))
  C.checkPrepares S rc.prepares { rc.round with number := c.round } c.digest

/-- The author of a round change that counts. -/
def checkRoundChange (rc : RoundChange) : Except Error Address := do
  let a ← C.author S rc.signed
  if rc.round.height ≠ C.height then
    throw (.invalid (.roundChangeHeight rc.round.height C.height))
  if let (some c, some block) := (rc.claim, rc.block) then C.checkClaim S rc c block
  return a

end BlockAgreement.Committee
