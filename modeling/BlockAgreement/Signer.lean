import BlockAgreement.Message.Frame
import BlockAgreement.Message.Lock

/-! What a validator with a key says. -/

namespace BlockAgreement

/-- A key: its address and the making of signatures, which may fail with a text. -/
structure Signer where
  address : Address
  sign : Digest → Except String Signature

namespace Signer

variable (S : Scheme) (K : Signer)

def signHash (h : Digest) : Except Error Signature := (K.sign h).mapError .signing

def attest {P : Type} [Statement P] (p : P) : Except Error (Signed P) := do
  return ⟨p, ← K.signHash (Statement.hash S p)⟩

def propose (round : RoundId) (block : Block) (roundChanges : List (Signed RoundChangeStatement))
    (prepares : List Prepare) : Except Error Proposal := do
  Proposal.new? (← K.attest S ⟨round, S.digest block⟩) block roundChanges prepares

def prepare (round : RoundId) (digest : Digest) : Except Error Prepare :=
  K.attest S ⟨round, digest⟩

/-- The seal is made before the commit is signed. -/
def commit (round : RoundId) (digest : Digest) : Except Error Commit := do
  K.attest S ⟨round, digest, ← K.signHash digest⟩

/-- Moves to a round, with the lock that it may have to answer for. -/
def changeRound (target : RoundId) (lock : Option Lock) : Except Error RoundChange := do
  let signed ← K.attest S (⟨target, lock.map Lock.claim⟩ : RoundChangeStatement)
  RoundChange.new? signed (lock.map Lock.block) ((lock.map Lock.prepares).getD [])

end Signer

end BlockAgreement
