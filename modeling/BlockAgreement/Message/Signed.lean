import BlockAgreement.Statement

/-! Signed statements. The author is not written down: it is found from the signature. -/

namespace BlockAgreement

structure Signed (P : Type) where
  statement : P
  signature : Signature
deriving DecidableEq

namespace Signed

variable {P : Type} [Statement P]

def round (m : Signed P) : RoundId := Statement.round m.statement

def author (S : Scheme) (m : Signed P) : Except Error Address :=
  S.signer (Statement.hash S m.statement) m.signature

def encode (m : Signed P) : Bytes :=
  Rlp.encodeList (Statement.encode m.statement ++ m.signature.encode)

def read : Reader Error (Signed P) := Wire.within "signed_payload" do
  let statement ← Statement.read
  let signature ← Wire.signature "signature"
  return ⟨statement, signature⟩

end Signed

/-- A vote for a block once its proposal is known. -/
abbrev Prepare := Signed PrepareStatement

/-- A vote for a block once a quorum prepared it. -/
abbrev Commit := Signed CommitStatement

end BlockAgreement
