import BlockAgreement.Message.Signed
import BlockAgreement.Quorum
import BlockAgreement.Rotation

/-! The validators of one height, and whose statements they take: those of members. -/

namespace BlockAgreement

structure Committee where
  height : UInt64
  validators : List Address
  rotation : Rotation
  validators_ne_nil : validators ≠ []

namespace Committee

def new? (height : UInt64) (validators : List Address) (rotation : Rotation) :
    Except Error Committee :=
  if h : validators ≠ [] then .ok ⟨height, validators, rotation, h⟩
  else .error .emptyValidatorSet

variable (S : Scheme) (C : Committee)

def contains (a : Address) : Bool := C.validators.contains a

def quorum : Nat := BlockAgreement.quorum C.validators.length

def faultTolerance : Nat := BlockAgreement.faultTolerance C.validators.length

def proposer (round : RoundId) : Except Error Address := C.rotation.proposer C.validators round

/-- The author of a statement, if a member. -/
def author {P : Type} [Statement P] (m : Signed P) : Except Error Address := do
  let a ← m.author S
  if C.contains a then return a else throw (.unauthorizedAuthor a)

end Committee

end BlockAgreement
