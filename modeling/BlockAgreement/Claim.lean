import BlockAgreement.Wire

/-! Prepared claims: the word of a validator that a quorum prepared a block in an earlier round.
Of many claims the one with the highest round counts, and claims of that round may not name two
blocks. -/

namespace BlockAgreement

structure Claim where
  digest : Digest
  round : UInt32
deriving DecidableEq

namespace Claim

def encode (c : Claim) : Bytes :=
  Rlp.encodeList (Rlp.encodeBytes c.digest.toList ++ Rlp.encodeNat c.round.toNat)

def read : Reader Rlp.Fault Claim := Rlp.record do
  let digest ← Rlp.fixed 32
  let round ← Rlp.uint32
  return ⟨digest, round⟩

/-- The last of the claims with the highest round. -/
def latest? (claims : List Claim) : Option Claim :=
  claims.foldl (fun best c => match best with
    | none => some c
    | some b => if c.round < b.round then some b else some c) none

/-- The claim that binds a later round, if there are any. Two claims of the highest round that name
different blocks show that too many validators are faulty. -/
def highest? (claims : List Claim) : Except Error (Option Claim) :=
  match latest? claims with
  | none => .ok none
  | some best =>
    match claims.find? fun c => c.round = best.round ∧ c.digest ≠ best.digest with
    | some other => .error (.conflictingClaims best.round best.digest other.digest)
    | none => .ok (some best)

end Claim

end BlockAgreement
