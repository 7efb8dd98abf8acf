import BlockAgreement.Error

/-! Whose turn it is. A rotation names a position for the first round of a height, and from there
the turn passes from validator to validator with each round. -/

namespace BlockAgreement

structure Rotation where
  name : String
  /-- A position in the list, which may also lie past its end. -/
  start : UInt64 → List Address → Nat

namespace Rotation

/-- Starts at the height modulo the number of validators. -/
def byHeight : Rotation where
  name := "HeightRoundRobin"
  start height validators := if validators.isEmpty then 0 else height.toNat % validators.length

/-- Starts after the proposer of the block before, or with the first validator when that proposer is
unknown or has left. -/
def afterPrevious (history : UInt64 → Option Address) : Rotation where
  name := "AfterPreviousProposer \x7b .. \x7d"
  start height validators :=
    if height = 0 then 0
    else
      match (history (height - 1)).bind validators.idxOf? with
      | some i => i + 1
      | none => 0

def proposer (R : Rotation) (validators : List Address) (round : RoundId) :
    Except Error Address :=
  let position := R.start round.height validators + round.number.toNat
  match validators[position % validators.length]? with
  | some a => .ok a
  | none => .error .emptyValidatorSet

end Rotation

end BlockAgreement
