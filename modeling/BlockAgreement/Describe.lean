import BlockAgreement.Block
import BlockAgreement.Committee

/-! One-line descriptions for people who watch a node. -/

namespace BlockAgreement

def Scheme.describeBlock (S : Scheme) (b : Block) : String :=
  s!"QbftBlock \x7b number: {b.number}, hash: Some({(S.digest b).toHex}), " ++
    s!"transactions: {b.transactions.length} \x7d"

def Committee.describe (S : Scheme) (C : Committee) : String :=
  let validators := ", ".intercalate (C.validators.map ByteVec.toHex)
  let codec := match S.scope with
    | .header => "RlpBlockCodec"
    | .block => "FullCodec"
  s!"ValidationContext \x7b height: {C.height}, validators: [{validators}], " ++
    s!"proposer_strategy: {C.rotation.name}, block_codec: {codec}, .. \x7d"

def Address.describeKey (a : Address) : String := s!"K256NodeKey \x7b address: {a.toHex}, .. \x7d"

end BlockAgreement
