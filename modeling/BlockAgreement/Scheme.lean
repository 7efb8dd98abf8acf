import BlockAgreement.Signature

/-! What the protocol takes from cryptography: a hash, the finding of authors, and the choice of
what a block's digest covers. Nothing else about keys or hashes is known to the modules above. -/

namespace BlockAgreement

/-- What the digest of a block is the hash of. -/
inductive Scope
  | header
  | block
deriving DecidableEq

structure Scheme where
  hash : Bytes → Digest
  recover : Digest → Signature → Except SignatureFault Address
  scope : Scope

namespace Scheme

/-- The author of a signature over a hash. -/
def signer (S : Scheme) (h : Digest) (g : Signature) : Except Error Address :=
  (S.recover h g).mapError .invalidSignature

end Scheme

end BlockAgreement
