import BlockAgreement.Message.Lock
import BlockAgreement.Validity.Proposal

/-! The votes of one round. Votes that come before the proposal are kept if a member sent them for
the round; when the proposal is set, those for other blocks go. The first vote of an author
counts. -/

namespace BlockAgreement

structure Tally where
  round : RoundId
  quorum : Nat
  proposal : Option Proposal
  prepares : Table Address Prepare
  commits : Table Address Commit
deriving DecidableEq

namespace Tally

def new (round : RoundId) (quorum : Nat) : Tally := ⟨round, quorum, none, .empty, .empty⟩

variable (S : Scheme) (C : Committee)

/-- Takes a proposal that was checked already, unless there is one. -/
def setProposal? (t : Tally) (p : Proposal) : Option Tally :=
  match t.proposal with
  | some _ => none
  | none => some { t with
      proposal := some p
      prepares := t.prepares.filter fun _ m => (C.checkPrepare S t.round p.digest m).isOk
      commits := t.commits.filter fun _ m => (C.checkCommit S t.round p.digest m).isOk }

def addPrepare (t : Tally) (m : Prepare) : Except Error Tally := do
  let a ← match t.proposal with
    | some p => C.checkPrepare S t.round p.digest m
    | none => C.voter S t.round m
  return if t.prepares.contains a then t else { t with prepares := t.prepares.insert a m }

def addCommit (t : Tally) (m : Commit) : Except Error Tally := do
  let a ← match t.proposal with
    | some p => C.checkCommit S t.round p.digest m
    | none => C.voter S t.round m
  return if t.commits.contains a then t else { t with commits := t.commits.insert a m }

def isPrepared (t : Tally) : Bool := t.proposal.isSome && t.quorum ≤ t.prepares.size

def isCommitted (t : Tally) : Bool := t.proposal.isSome && t.quorum ≤ t.commits.size

def lock? (t : Tally) : Option Lock :=
  if t.isPrepared then
    t.proposal.map fun p => ⟨p.block, p.digest, t.prepares.values, t.round.number⟩
  else none

/-- The decided block with the seals of those who committed it. -/
def decision? (t : Tally) : Option (Block × List Signature) :=
  if t.isCommitted then
    t.proposal.map fun p => (p.block, t.commits.values.map (·.statement.blockSeal))
  else none

end Tally

end BlockAgreement
