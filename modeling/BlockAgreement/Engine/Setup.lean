import BlockAgreement.Config
import BlockAgreement.Rotation
import BlockAgreement.Signer

/-! What a node is given: once and for all its scheme, key, settings and knowledge of validators,
and anew with every event the answers of those who make and take blocks. -/

namespace BlockAgreement

structure Setup where
  scheme : Scheme
  signer : Signer
  rotation : Rotation
  config : Config
  validatorsAt : UInt64 → List Address

/-- They may fail for whatever reason. -/
structure Collaborators where
  createBlock : RoundId → Except Error Block
  importBlock : Block → List Signature → Except Error Unit

end BlockAgreement
