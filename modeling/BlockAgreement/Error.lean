import BlockAgreement.Crypto.Checksum
import BlockAgreement.Rlp.Basic
import BlockAgreement.RoundId

/-! What can go wrong, by cause, and the text of each cause. Faults of a single message are told
apart from those of the instance: only the latter stop a node. -/

namespace BlockAgreement

/-- Why a field of a message could not be read or does not fit the others. -/
inductive Reason
  | rlp (fault : Rlp.Fault)
  | notList
  | notString
  | trailing (bytes : Nat)
  | signatureLength (bytes : Nat)
  | parity (byte : UInt8)
  | emptyMessage
  | justifiedRoundZero
  | unjustified (round : UInt32)
  | blockWithoutClaim
  | preparesWithoutClaim
  | claimWithoutBlock
  | claimWithoutPrepares
  | prepareRound (found claimed : UInt32)
  | prepareDigest
  | other (text : String)
deriving DecidableEq

def Reason.message : Reason → String
  | .rlp fault => fault.message
  | .notList => "expected an RLP list"
  | .notString => "expected a byte string"
  | .trailing bytes => s!"{bytes} unexpected trailing bytes"
  | .signatureLength bytes => s!"expected 65 bytes, got {bytes}"
  | .parity byte => s!"invalid recovery id {byte}"
  | .emptyMessage => "empty message"
  | .justifiedRoundZero => "round-change certificate present at round 0"
  | .unjustified round => s!"round-change certificate missing at round {round}"
  | .blockWithoutClaim => "block present without prepared metadata"
  | .preparesWithoutClaim => "prepares present without prepared metadata"
  | .claimWithoutBlock => "prepared metadata without a block"
  | .claimWithoutPrepares => "prepared metadata without prepares"
  | .prepareRound found claimed =>
    s!"prepare for round {found} does not match prepared round {claimed}"
  | .prepareDigest => "prepare digest does not match prepared block"
  | .other text => text

/-- Why no author can be found for a signature. -/
inductive SignatureFault
  | scalars
  | key
  | other (text : String)
deriving DecidableEq

def SignatureFault.message : SignatureFault → String
  | .scalars => "malformed signature scalars: signature error"
  | .key => "public key recovery failed: signature error"
  | .other text => text

/-- The rule that a well-formed message breaks. -/
inductive Violation
  | prepareForRound (found round : RoundId)
  | prepareForBlock (found digest : Digest)
  | repeatedPrepare (author : Address)
  | fewPrepares (count quorum : Nat)
  | otherRound (found round : RoundId)
  | prepareDigest (author : Address) (found digest : Digest)
  | commitDigest (author : Address) (found digest : Digest)
  | foreignSeal (sealer author : Address)
  | proposalHeight (found height : UInt64)
  | notProposer (round : RoundId) (author proposer : Address)
  | proposalDigest (found signed : Digest)
  | blockNumber (found height : UInt64)
  | preparesAtRoundZero
  | roundChangeFor (found round : RoundId)
  | claimTooLate (claimed round : UInt32)
  | repeatedRoundChange (author : Address)
  | fewRoundChanges (count quorum : Nat)
  | otherBlock (claimed proposed : Digest)
  | preparesUnclaimed
  | roundChangeHeight (found height : UInt64)
  | claimNotBelow (claimed target : UInt32)
  | claimedBlock (found claimed : Digest)
  | other (text : String)
deriving DecidableEq

def Violation.message : Violation → String
  | .prepareForRound found round => s!"prepare for {found} in certificate for {round}"
  | .prepareForBlock found digest =>
    s!"prepare for block {found.toHex} in certificate for block {digest.toHex}"
  | .repeatedPrepare author => s!"duplicate prepare from {author.checksummed} in certificate"
  | .fewPrepares count quorum =>
    s!"prepare certificate has {count} prepares, quorum is {quorum}"
  | .otherRound found round => s!"message for {found} handled in round {round}"
  | .prepareDigest author found digest =>
    s!"prepare from {author.checksummed} for block {found.toHex}, proposal is {digest.toHex}"
  | .commitDigest author found digest =>
    s!"commit from {author.checksummed} for block {found.toHex}, proposal is {digest.toHex}"
  | .foreignSeal sealer author =>
    s!"commit seal from {sealer.checksummed} in commit by {author.checksummed}"
  | .proposalHeight found height => s!"proposal for height {found}, expected {height}"
  | .notProposer round author proposer =>
    s!"proposal for {round} from {author.checksummed}, expected proposer {proposer.checksummed}"
  | .proposalDigest found signed =>
    s!"proposed block hash {found.toHex} does not match signed digest {signed.toHex}"
  | .blockNumber found height =>
    s!"proposed block number {found} does not match height {height}"
  | .preparesAtRoundZero => "prepare certificate in round 0 proposal"
  | .roundChangeFor found round => s!"round change for {found} in certificate for {round}"
  | .claimTooLate claimed round =>
    s!"round change claims prepared round {claimed} at round {round}"
  | .repeatedRoundChange author =>
    s!"duplicate round change from {author.checksummed} in certificate"
  | .fewRoundChanges count quorum =>
    s!"round-change certificate has {count} entries, quorum is {quorum}"
  | .otherBlock claimed proposed =>
    s!"proposal must re-propose prepared block {claimed.toHex}, got {proposed.toHex}"
  | .preparesUnclaimed => "prepare certificate without a prepared round change"
  | .roundChangeHeight found height =>
    s!"round change targets height {found}, expected {height}"
  | .claimNotBelow claimed target =>
    s!"prepared round {claimed} is not below target round {target}"
  | .claimedBlock found claimed =>
    s!"proposed block {found.toHex} does not match prepared block {claimed.toHex}"
  | .other text => text

inductive Error
  | malformed (field : String) (reason : Reason)
  | invalidSignature (fault : SignatureFault)
  | unauthorizedAuthor (author : Address)
  | conflictingClaims (round : UInt32) (first second : Digest)
  | emptyValidatorSet
  | invalid (violation : Violation)
  | unknownCode (code : UInt8)
  | signing (text : String)
  | blockCreation (text : String)
  | blockImport (text : String)
  /-- A number past the last of its type. No answer comes of it: what is going on is broken off. -/
  | overflow
deriving DecidableEq

namespace Error

def message : Error → String
  | .malformed field reason => s!"Malformed message, field `{field}`: {reason.message}"
  | .invalidSignature fault => s!"Invalid signature: {fault.message}"
  | .unauthorizedAuthor author =>
    s!"Author {author.toHex} is not a member of the validator set"
  | .conflictingClaims round first second =>
    s!"Conflicting prepared blocks at prepared round {round}: {first.toHex} vs {second.toHex}"
  | .emptyValidatorSet => "No validators available"
  | .invalid violation => s!"Validation failed: {violation.message}"
  | .unknownCode code => s!"Invalid message type: {code}"
  | .signing text => s!"Signing error: {text}"
  | .blockCreation text => s!"Block creation error: {text}"
  | .blockImport text => s!"Block import error: {text}"
  | .overflow => "attempt to add with overflow"

/-- Whether a single message is to blame, rather than the instance that handles it. -/
def isMessageFault : Error → Bool
  | .malformed .. | .invalidSignature _ | .unauthorizedAuthor _ | .invalid _ | .unknownCode _ =>
    true
  | _ => false

end Error

end BlockAgreement
