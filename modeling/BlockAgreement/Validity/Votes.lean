import BlockAgreement.Committee

/-! When prepares and commits count: alone as votes of a round, and together as the proof that a
quorum prepared a block. -/

namespace BlockAgreement.Committee

variable (S : Scheme) (C : Committee)

/-- The author of a vote for this round, whatever it is for. -/
def voter {P : Type} [Statement P] (round : RoundId) (m : Signed P) : Except Error Address := do
  let a ← C.author S m
  if m.round = round then return a else throw (.invalid (.otherRound m.round round))

/-- The author of a prepare for this block. -/
def checkPrepare (round : RoundId) (digest : Digest) (m : Prepare) : Except Error Address := do
  let a ← C.voter S round m
  if m.statement.digest = digest then return a
  else throw (.invalid (.prepareDigest a m.statement.digest digest))

/-- The author of a commit for this block, who must have sealed the block as well. -/
def checkCommit (round : RoundId) (digest : Digest) (m : Commit) : Except Error Address := do
  let a ← C.voter S round m
  if m.statement.digest ≠ digest then
    throw (.invalid (.commitDigest a m.statement.digest digest))
  let sealer ← S.signer digest m.statement.blockSeal
  if sealer = a then return a else throw (.invalid (.foreignSeal sealer a))

/-- Adds the author of a prepare for this round and block to those before it. -/
def admitPrepare (round : RoundId) (digest : Digest) (authors : List Address) (m : Prepare) :
    Except Error (List Address) := do
  if m.statement.round ≠ round then
    throw (.invalid (.prepareForRound m.statement.round round))
  if m.statement.digest ≠ digest then
    throw (.invalid (.prepareForBlock m.statement.digest digest))
  let a ← C.author S m
  if authors.contains a then throw (.invalid (.repeatedPrepare a))
  return a :: authors

/-- Requires prepares for this round and block from a quorum of different members, and no others. -/
def checkPrepares (prepares : List Prepare) (round : RoundId) (digest : Digest) :
    Except Error Unit := do
  let authors ← prepares.foldlM (C.admitPrepare S round digest) []
  if authors.length < C.quorum then throw (.invalid (.fewPrepares authors.length C.quorum))

end BlockAgreement.Committee
