import BlockAgreement.Claim
import BlockAgreement.Scheme

/-! What validators sign: that they propose, prepare or commit a block in a round, or that they
move on to a round. A signature is made over the hash of the kind of statement together with its
text, so that a statement of one kind is never taken for one of another. -/

namespace BlockAgreement

inductive Kind
  | proposal
  | prepare
  | commit
  | roundChange
deriving DecidableEq

namespace Kind

def code : Kind → UInt8
  | .proposal => 0
  | .prepare => 1
  | .commit => 2
  | .roundChange => 3

def name : Kind → String
  | .proposal => "Proposal"
  | .prepare => "Prepare"
  | .commit => "Commit"
  | .roundChange => "RoundChange"

def ofCode? (c : UInt8) : Option Kind :=
  if c = 0 then some .proposal
  else if c = 1 then some .prepare
  else if c = 2 then some .commit
  else if c = 3 then some .roundChange
  else none

end Kind

class Statement (P : Type) where
  kind : Kind
  round : P → RoundId
  encode : P → Bytes
  read : Reader Error P

namespace Statement

variable {P : Type} [Statement P]

/-- The bytes whose hash is signed. -/
def preimage (p : P) : Bytes :=
  Rlp.encodeList (Rlp.encodeNat (kind P).code.toNat ++ encode p)

/-- The hash that is signed. -/
def hash (S : Scheme) (p : P) : Digest := S.hash (preimage p)

end Statement

structure ProposalStatement where
  round : RoundId
  digest : Digest
deriving DecidableEq

structure PrepareStatement where
  round : RoundId
  digest : Digest
deriving DecidableEq

structure CommitStatement where
  round : RoundId
  digest : Digest
  /-- The committer's signature over the digest itself, which goes with the block. -/
  blockSeal : Signature
deriving DecidableEq

structure RoundChangeStatement where
  /-- The round to move to. -/
  round : RoundId
  claim : Option Claim
deriving DecidableEq

instance : Statement ProposalStatement where
  kind := .proposal
  round := ProposalStatement.round
  encode p := Rlp.encodeList (p.round.encode ++ Rlp.encodeBytes p.digest.toList)
  read := Wire.within "proposal" do
    let round ← Wire.roundId
    let digest ← Wire.field "proposal.digest" (Rlp.fixed 32)
    return ⟨round, digest⟩

instance : Statement PrepareStatement where
  kind := .prepare
  round := PrepareStatement.round
  encode p := Rlp.encodeList (p.round.encode ++ Rlp.encodeBytes p.digest.toList)
  read := Wire.within "prepare" do
    let round ← Wire.roundId
    let digest ← Wire.field "prepare.digest" (Rlp.fixed 32)
    return ⟨round, digest⟩

instance : Statement CommitStatement where
  kind := .commit
  round := CommitStatement.round
  encode p :=
    Rlp.encodeList (p.round.encode ++ Rlp.encodeBytes p.digest.toList ++ p.blockSeal.encode)
  read := Wire.within "commit" do
    let round ← Wire.roundId
    let digest ← Wire.field "commit.digest" (Rlp.fixed 32)
    let blockSeal ← Wire.signature "commit.committed_seal"
    return ⟨round, digest, blockSeal⟩

instance : Statement RoundChangeStatement where
  kind := .roundChange
  round := RoundChangeStatement.round
  encode p := Rlp.encodeList (p.round.encode ++ match p.claim with
    | some c => c.encode
    | none => Rlp.emptyList)
  read := Wire.within "round_change" do
    let round ← Wire.roundId
    let claim ← Wire.optional (Wire.field "round_change.prepared_round_metadata" Claim.read)
    return ⟨round, claim⟩

end BlockAgreement
