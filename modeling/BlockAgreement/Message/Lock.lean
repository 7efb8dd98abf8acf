import BlockAgreement.Block
import BlockAgreement.Message.Signed

/-! A lock: a block that a quorum prepared, with the prepares that prove it. A node carries its
latest lock into every round change. -/

namespace BlockAgreement

structure Lock where
  block : Block
  digest : Digest
  prepares : List Prepare
  round : UInt32
deriving DecidableEq

def Lock.claim (l : Lock) : Claim := ⟨l.digest, l.round⟩

end BlockAgreement
