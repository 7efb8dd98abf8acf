import BlockAgreement.Engine.Backlog
import BlockAgreement.Engine.Round
import BlockAgreement.Engine.RoundChanges

/-! The consensus of one height: its current round, the moves from round to round, the timer of the
round, and the votes held back for later rounds. The fault of a single message, and a failure to
make or to take a block that says so, end at the handler of the message; other failures go to the
node. -/

namespace BlockAgreement

structure Instance where
  committee : Committee
  round : Round
  /-- Whether the node left its last round and the new one is not justified yet. -/
  changing : Bool
  /-- The latest block that the node saw prepared. -/
  lock : Option Lock
  roundChanges : RoundChanges
  backlog : Backlog UInt32

inductive Phase
  | newRound
  | prepared
  | committed
  | roundChanging
deriving DecidableEq

namespace Instance

variable (E : Setup)

def participates (C : Committee) : Bool := C.contains E.signer.address

def freshRound (C : Committee) (number : UInt32) : Round :=
  .new (.new ⟨C.height, number⟩ C.quorum) (participates E C)

def new (C : Committee) : Instance where
  committee := C
  round := freshRound E C 0
  changing := false
  lock := none
  roundChanges := .new E.config.roundHorizon
  backlog := .empty

def height (i : Instance) : UInt64 := i.committee.height

def isCommitted (i : Instance) : Bool := i.round.isCommitted

def phase (i : Instance) : Phase :=
  if i.isCommitted then .committed
  else if i.changing then .roundChanging
  else if i.round.isPrepared then .prepared
  else .newRound

/-- Failures that a node survives. -/
def survives : Error → Bool
  | .conflictingClaims .. | .blockCreation _ | .blockImport _ => true
  | e => e.isMessageFault

def onRound {α : Type} (h : Handler Round α) : Handler Instance α :=
  .focus Instance.round (fun r i => { i with round := r }) h

def onRoundChanges {α : Type} (h : Handler RoundChanges α) : Handler Instance α :=
  .focus Instance.roundChanges (fun p i => { i with roundChanges := p }) h

/-- Keeps the lock of a round when it is prepared, and stops its timer when it is decided. -/
def noteProgress : Handler Instance Unit := do
  let i ← get
  if i.round.isPrepared && i.lock.map Lock.round ≠ some i.round.id.number then
    set { i with lock := i.round.tally.lock? }
  if i.isCommitted then .ask (.cancelTimer i.round.id)

/-- Holds a vote for a later round, if a member sent it. -/
def hold (m : Message) : Handler Instance Unit := do
  let i ← get
  let a ← .ofExcept (m.author E.scheme)
  if i.committee.contains a then
    set { i with backlog := i.backlog.push E.config.bufferLimit.toNat m.round.number m }
  else .ofExcept (.error (.unauthorizedAuthor a))

variable (ext : Collaborators)

/-- A vote for the current round, a later one or a past one. -/
def handleVote (m : Message) : Handler Instance Unit := do
  let i ← get
  if i.round.id.number < m.round.number then hold E m
  else if m.round.number = i.round.id.number then
    match m with
    | .prepare v => onRound (Round.handlePrepare E i.committee ext v)
    | .commit v => onRound (Round.handleCommit E i.committee ext v)
    | .proposal _ | .roundChange _ => pure ()
    noteProgress

/-- Drops what was held for rounds before this one, and handles what was held for it. -/
def replay (number : UInt32) : Handler Instance Unit := do
  let i ← get
  let ready := i.backlog.queue number
  set { i with backlog := i.backlog.discardThrough number }
  ready.forM fun m => .absorb survives (handleVote E ext m)

def advance (number : UInt32) : Handler Instance Unit := do
  let i ← get
  .ask (.cancelTimer i.round.id)
  let round := freshRound E i.committee number
  set { i with round, roundChanges := i.roundChanges.discardBefore number }
  .ask (.startTimer round.id (E.config.timeout number))
  replay E ext number

def makeBlock (round : RoundId) : Handler Instance Block := do
  let answer := ext.createBlock round
  .ask (.requestBlock round answer.toOption)
  .ofExcept answer

/-- Proposes a block in the current round and treats the proposal as received. -/
def propose (block : Block) (roundChanges : List (Signed RoundChangeStatement))
    (prepares : List Prepare) : Handler Instance Unit := do
  let i ← get
  onRound (Round.propose E i.committee ext block roundChanges prepares)
  modify fun i => { i with changing := false }
  noteProgress

/-- Proposes if it is the node's turn and there is no proposal yet: at round 0 a new block, later
the block that the justification asks for, or a new one if it asks for none. -/
def proposeIfProposer (j : Option Justification) : Handler Instance Unit := do
  let i ← get
  if i.round.participates && !i.round.hasProposal then
    let proposer ← .ofExcept (i.committee.proposer i.round.id)
    if proposer = E.signer.address then
      if i.round.id.number = 0 then
        let block ← makeBlock ext i.round.id
        propose E ext block [] []
      else
        match j with
        | none => return
        | some j =>
          let block ← match j.block with
            | some block => .pure block
            | none => makeBlock ext i.round.id
          propose E ext block j.roundChanges j.prepares

def start : Handler Instance Unit := do
  let i ← get
  .ask (.startTimer i.round.id (E.config.timeout 0))
  .absorb survives (proposeIfProposer E ext none)

/-- Enters a justified round. -/
def enter (j : Justification) : Handler Instance Unit := do
  let i ← get
  if i.round.id.number ≤ j.round.number then
    if i.round.id.number < j.round.number then advance E ext j.round.number
    modify fun i => { i with changing := false }
    proposeIfProposer E ext (some j)

/-- Leaves the current round for another and tells the others. -/
def changeRound (target : UInt32) : Handler Instance Unit := do
  advance E ext target
  modify fun i => { i with changing := true }
  let i ← get
  if i.round.participates then
    let rc ← .ofExcept (E.signer.changeRound E.scheme i.round.id i.lock)
    .multicast (.roundChange rc)
    match ← onRoundChanges (RoundChanges.append E.scheme i.committee rc) with
    | some j => enter E ext j
    | none => return

def handleProposal (p : Proposal) : Handler Instance Unit := do
  let i ← get
  if i.round.id.number ≤ p.round.number && !i.isCommitted then
    discard (.ofExcept (i.committee.checkProposal E.scheme p))
    if i.round.id.number < p.round.number then advance E ext p.round.number
    onRound (Round.acceptProposal E i.committee ext p)
    modify fun i => { i with changing := false }
    noteProgress

def handleRoundChange (rc : RoundChange) : Handler Instance Unit := do
  let i ← get
  if i.round.id.number ≤ rc.round.number && !i.isCommitted then
    match ← onRoundChanges (RoundChanges.append E.scheme i.committee rc) with
    | some j => enter E ext j
    | none =>
      let p ← Instance.roundChanges <$> get
      if E.config.earlyRoundChange then
        match p.earlyTarget? i.committee i.round.id.number with
        | some target => changeRound E ext target
        | none => return

/-- Messages for other heights are ignored. -/
def handleMessage (m : Message) : Handler Instance Unit := do
  let i ← get
  if m.round.height = i.height then
    .absorb survives (match m with
      | .proposal p => handleProposal E ext p
      | .roundChange rc => handleRoundChange E ext rc
      | .prepare _ | .commit _ => handleVote E ext m)

/-- The timer of a round ran out. Only the current round's counts, and only until the decision. -/
def roundExpired (round : RoundId) : Handler Instance Unit := do
  let i ← get
  if round = i.round.id && !i.isCommitted then
    .absorb survives (changeRound E ext (nextNumber round.number))

end Instance

end BlockAgreement
