import BlockAgreement.Error

/-! Recoverable signatures: two scalars of 32 bytes and one parity byte, 65 bytes in all. Whether
the scalars are usable shows only when an author is looked for. -/

namespace BlockAgreement

structure Signature where
  r : ByteVec 32
  s : ByteVec 32
  odd : Bool
deriving DecidableEq

namespace Signature

def toBytes (g : Signature) : Bytes := g.r.toList ++ g.s.toList ++ [if g.odd then 1 else 0]

def ofBytes? (b : Bytes) : Except Reason Signature :=
  match ByteVec.ofList? (b.take 32), ByteVec.ofList? ((b.drop 32).take 32), b.drop 64 with
  | some r, some s, [v] =>
    if v = 0 then .ok ⟨r, s, false⟩
    else if v = 1 then .ok ⟨r, s, true⟩
    else .error (.parity v)
  | _, _, _ => .error (.signatureLength b.length)

end Signature

end BlockAgreement
