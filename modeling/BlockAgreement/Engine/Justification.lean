import BlockAgreement.Validity.RoundChange

/-! The justification of a round: the round changes of a quorum, and the block that they bind its
proposer to, with the prepares for it. -/

namespace BlockAgreement

structure Justification where
  round : RoundId
  roundChanges : List (Signed RoundChangeStatement)
  block : Option Block
  prepares : List Prepare
deriving DecidableEq

namespace Justification

variable (S : Scheme)

/-- The round changes to this round, the first of each author. -/
def contributing (round : RoundId) (rcs : List RoundChange) : List RoundChange :=
  (rcs.foldl (fun (authors, kept) rc =>
    match rc.author S with
    | .ok a =>
      if rc.round = round && !authors.contains a then (a :: authors, kept ++ [rc])
      else (authors, kept)
    | .error _ => (authors, kept)) (([], []) : List Address × List RoundChange)).2

/-- Takes the block and the prepares from the first round change with the highest claim. Below a
quorum there is nothing to assemble. -/
def assemble? (round : RoundId) (rcs : List RoundChange) (quorum : Nat) :
    Except Error (Option Justification) := do
  let chosen := contributing S round rcs
  if chosen.length < quorum then return none
  let highest ← Claim.highest? (chosen.filterMap RoundChange.claim)
  let supplier := highest.bind fun c => chosen.find? fun rc => rc.claim = some c
  return some
    { round
      roundChanges := chosen.map RoundChange.signed
      block := supplier.bind RoundChange.block
      prepares := (supplier.map RoundChange.prepares).getD [] }

end Justification

end BlockAgreement
