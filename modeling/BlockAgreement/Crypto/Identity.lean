import BlockAgreement.Crypto.Ecdsa
import BlockAgreement.Crypto.Keccak
import BlockAgreement.Signer

/-! The scheme in use: Keccak-256 as the hash, and ECDSA over secp256k1, where a public key is
known by the end of the hash of its coordinates. -/

namespace BlockAgreement

/-- The last 20 bytes of the hash of both coordinates. -/
def Address.ofPoint (a : Secp256k1.Affine) : Address :=
  .ofNat (Keccak.hash (Bytes.ofNat 32 a.x ++ Bytes.ofNat 32 a.y)).toNat

def Signature.ofSign (g : Ecdsa.Sign) : Signature := ⟨.ofNat g.r, .ofNat g.s, g.odd⟩

def Signature.toSign (g : Signature) : Ecdsa.Sign := ⟨g.r.toNat, g.s.toNat, g.odd⟩

def recoverAddress (hash : Digest) (g : Signature) : Except SignatureFault Address :=
  let g := g.toSign
  if !g.inRange then .error .scalars
  else
    match Ecdsa.recover hash g with
    | some a => .ok (.ofPoint a)
    | none => .error .key

def Scheme.secp256k1 (scope : Scope) : Scheme := ⟨Keccak.hash, recoverAddress, scope⟩

namespace Signer

/-- The key with this secret: a scalar of 24 to 32 bytes, neither zero nor past the order. -/
def ofSecret? (secret : Bytes) : Except Error Signer :=
  let d := Bytes.toNat secret
  let usable := 24 ≤ secret.length && secret.length ≤ 32 && 0 < d && d < Secp256k1.n
  match if usable then Ecdsa.publicKey d else none with
  | some a => .ok
    { address := .ofPoint a
      sign := fun h => match Ecdsa.sign d h with
        | some g => .ok (.ofSign g)
        | none => .error "signature error" }
  | none => .error (.signing "signature error")

end Signer

end BlockAgreement
