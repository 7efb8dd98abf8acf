import BlockAgreement.Engine.Handler
import BlockAgreement.Engine.Setup
import BlockAgreement.Engine.Tally

/-! One round of a node: it answers the proposal with a prepare, a quorum of prepares with a
commit, and hands over the block once a quorum committed it. A node that is no member only
watches. -/

namespace BlockAgreement

structure Round where
  tally : Tally
  /-- Whether the node votes. -/
  participates : Bool
  commitSent : Bool
  delivered : Bool
deriving DecidableEq

namespace Round

def new (tally : Tally) (participates : Bool) : Round := ⟨tally, participates, false, false⟩

def id (r : Round) : RoundId := r.tally.round

def hasProposal (r : Round) : Bool := r.tally.proposal.isSome

def isPrepared (r : Round) : Bool := r.tally.isPrepared

def isCommitted (r : Round) : Bool := r.tally.isCommitted

variable (E : Setup) (C : Committee) (ext : Collaborators)

def addPrepare (m : Prepare) : Handler Round Unit := do
  let r ← get
  let t ← .ofExcept (r.tally.addPrepare E.scheme C m)
  set { r with tally := t }

def addCommit (m : Commit) : Handler Round Unit := do
  let r ← get
  let t ← .ofExcept (r.tally.addCommit E.scheme C m)
  set { r with tally := t }

/-- Sends the node's commit, once, when the block is prepared. -/
def commitIfPrepared : Handler Round Unit := do
  let r ← get
  match r.tally.proposal with
  | some p =>
    if r.participates && !r.commitSent && r.isPrepared then
      let m ← .ofExcept (E.signer.commit E.scheme r.id p.digest)
      set { r with commitSent := true }
      .multicast (.commit m)
      addCommit E C m
  | none => return

/-- Hands over the block, once, when it is decided. A refusal does not make it try again. -/
def deliverIfCommitted : Handler Round Unit := do
  let r ← get
  match r.tally.decision? with
  | some (block, seals) =>
    if !r.delivered then
      set { r with delivered := true }
      let answer := ext.importBlock block seals
      .ask (.deliverBlock block seals answer.isOk)
      .ofExcept answer
  | none => return

def progress : Handler Round Unit := do
  commitIfPrepared E C
  deliverIfCommitted ext

/-- Takes a proposal that was checked already and answers it. A second one is ignored. -/
def acceptProposal (p : Proposal) : Handler Round Unit := do
  let r ← get
  match r.tally.setProposal? E.scheme C p with
  | none => return
  | some t =>
    set { r with tally := t }
    if r.participates then
      let m ← .ofExcept (E.signer.prepare E.scheme r.id p.digest)
      .multicast (.prepare m)
      addPrepare E C m
    progress E C ext

def propose (block : Block) (roundChanges : List (Signed RoundChangeStatement))
    (prepares : List Prepare) : Handler Round Unit := do
  let r ← get
  let p ← .ofExcept (E.signer.propose E.scheme r.id block roundChanges prepares)
  .multicast (.proposal p)
  acceptProposal E C ext p

def handlePrepare (m : Prepare) : Handler Round Unit := do
  addPrepare E C m
  progress E C ext

def handleCommit (m : Commit) : Handler Round Unit := do
  addCommit E C m
  progress E C ext

end Round

end BlockAgreement
