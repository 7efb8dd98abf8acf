import BlockAgreement.Crypto.Secp256k1
import BlockAgreement.Crypto.Sha256

/-! Recoverable ECDSA signatures over 32-byte hashes. The nonce is drawn from the secret and the
hash by the keyed-hash generator of deterministic signing, and `s` is taken from the lower half of
the scalars, so a secret and a hash have one signature. -/

namespace BlockAgreement.Ecdsa

open Secp256k1

/-- The scalars of a signature, and whether `y` of the nonce's point is odd. -/
structure Sign where
  r : Nat
  s : Nat
  odd : Bool

/-- The generator's state: a key and the last output. -/
structure Generator where
  key : Bytes
  value : Bytes

namespace Generator

def refresh (g : Generator) (input : Bytes) : Generator :=
  let key := Sha256.hmac g.key (g.value ++ input)
  ⟨key, Sha256.hmac key g.value⟩

def next (g : Generator) : Generator := { g with value := Sha256.hmac g.key g.value }

/-- Seeded with the secret and with the hash as it is, not reduced by the order. -/
def seed (secret : Nat) (hash : Digest) : Generator :=
  let material := Bytes.ofNat 32 secret ++ hash.toList
  let start : Generator := ⟨List.replicate 32 0, List.replicate 32 1⟩
  (start.refresh (0 :: material)).refresh (1 :: material)

end Generator

/-- The signature with nonce `k`, unless one of its scalars would be zero. -/
def signWith? (secret : Nat) (hash : Digest) (k : Nat) : Option Sign := do
  let point ← (mulBase k).toAffine?
  let r := point.x % n
  let s := inverse k n * (hash.toNat + r * secret) % n
  if r = 0 ∨ s = 0 then none
  else
    let odd := point.y % 2 == 1
    some (if n / 2 < s then ⟨r, n - s, !odd⟩ else ⟨r, s, odd⟩)

/-- Tries the generator's outputs in turn; each is a usable nonce but for a chance of `2 ^ -127`. -/
def signFrom (secret : Nat) (hash : Digest) : Nat → Generator → Option Sign
  | 0, _ => none
  | tries + 1, g =>
    let g := g.next
    let k := Bytes.toNat g.value
    match if k = 0 ∨ n ≤ k then none else signWith? secret hash k with
    | some signature => some signature
    | none => signFrom secret hash tries (g.refresh [0])

def sign (secret : Nat) (hash : Digest) : Option Sign := signFrom secret hash 64 (.seed secret hash)

/-- The public key of a secret. -/
def publicKey (secret : Nat) : Option Affine := (mulBase secret).toAffine?

/-- Whether `r` and `s` are scalars other than zero. -/
def Sign.inRange (g : Sign) : Bool := 0 < g.r && g.r < n && 0 < g.s && g.s < n

/-- The one key for which the signature holds. A signature with a high `s` has none. -/
def recover (hash : Digest) (g : Sign) : Option Affine := do
  if n / 2 < g.s then none
  let point ← lift? g.r g.odd
  let i := inverse g.r n
  let u := (n - hash.toNat * i % n) % n
  let v := g.s * i % n
  (Point.sum (mulBase u) ((Point.ofAffine point).mul v)).toAffine?

end BlockAgreement.Ecdsa
