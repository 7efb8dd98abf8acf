import BlockAgreement.Bytes

/-! The SHA-256 hash and the keyed hash HMAC over it. -/

namespace BlockAgreement.Sha256

@[inline] def rotate (x : UInt32) (n : UInt32) : UInt32 := (x >>> n) ||| (x <<< (32 - n))

structure State where
  a : UInt32
  b : UInt32
  c : UInt32
  d : UInt32
  e : UInt32
  f : UInt32
  g : UInt32
  h : UInt32

def initial : State :=
  ⟨0x6a09e667, 0xbb67ae85, 0x3c6ef372, 0xa54ff53a, 0x510e527f, 0x9b05688c, 0x1f83d9ab, 0x5be0cd19⟩

def roundConstants : List UInt32 :=
  [0x428a2f98, 0x71374491, 0xb5c0fbcf, 0xe9b5dba5, 0x3956c25b, 0x59f111f1, 0x923f82a4, 0xab1c5ed5,
   0xd807aa98, 0x12835b01, 0x243185be, 0x550c7dc3, 0x72be5d74, 0x80deb1fe, 0x9bdc06a7, 0xc19bf174,
   0xe49b69c1, 0xefbe4786, 0x0fc19dc6, 0x240ca1cc, 0x2de92c6f, 0x4a7484aa, 0x5cb0a9dc, 0x76f988da,
   0x983e5152, 0xa831c66d, 0xb00327c8, 0xbf597fc7, 0xc6e00bf3, 0xd5a79147, 0x06ca6351, 0x14292967,
   0x27b70a85, 0x2e1b2138, 0x4d2c6dfc, 0x53380d13, 0x650a7354, 0x766a0abb, 0x81c2c92e, 0x92722c85,
   0xa2bfe8a1, 0xa81a664b, 0xc24b8b70, 0xc76c51a3, 0xd192e819, 0xd6990624, 0xf40e3585, 0x106aa070,
   0x19a4c116, 0x1e376c08, 0x2748774c, 0x34b0bcb5, 0x391c0cb3, 0x4ed8aa4a, 0x5b9cca4f, 0x682e6ff3,
   0x748f82ee, 0x78a5636f, 0x84c87814, 0x8cc70208, 0x90befffa, 0xa4506ceb, 0xbef9a3f7, 0xc67178f2]

/-- The message words, the newest first, extended by `n` words. -/
def extend : Nat → List UInt32 → List UInt32
  | 0, w => w
  | n + 1, w =>
    let x := w.getD 1 0
    let y := w.getD 14 0
    let s1 := rotate x 17 ^^^ rotate x 19 ^^^ (x >>> 10)
    let s0 := rotate y 7 ^^^ rotate y 18 ^^^ (y >>> 3)
    extend n ((s1 + w.getD 6 0 + s0 + w.getD 15 0) :: w)

def round (s : State) (kw : UInt32 × UInt32) : State :=
  let s1 := rotate s.e 6 ^^^ rotate s.e 11 ^^^ rotate s.e 25
  let ch := (s.e &&& s.f) ^^^ (~~~s.e &&& s.g)
  let t1 := s.h + s1 + ch + kw.1 + kw.2
  let s0 := rotate s.a 2 ^^^ rotate s.a 13 ^^^ rotate s.a 22
  let maj := (s.a &&& s.b) ^^^ (s.a &&& s.c) ^^^ (s.b &&& s.c)
  ⟨t1 + (s0 + maj), s.a, s.b, s.c, s.d + t1, s.e, s.f, s.g⟩

def add (s t : State) : State :=
  ⟨s.a + t.a, s.b + t.b, s.c + t.c, s.d + t.d, s.e + t.e, s.f + t.f, s.g + t.g, s.h + t.h⟩

/-- The big-endian words of a byte string, a part of a word at its end left out. -/
def words : Bytes → List UInt32
  | a :: b :: c :: d :: rest =>
    ((a.toUInt32 <<< 24) ||| (b.toUInt32 <<< 16) ||| (c.toUInt32 <<< 8) ||| d.toUInt32) ::
      words rest
  | _ => []

def compress (s : State) (block : Bytes) : State :=
  add s ((roundConstants.zip (extend 48 (words block).reverse).reverse).foldl round s)

/-- A one bit, zeros and the length in bits after the message, up to whole blocks of 64 bytes. -/
def padded (b : Bytes) : Bytes :=
  b ++ 0x80 :: List.replicate ((119 - b.length % 64) % 64) 0 ++ Bytes.ofNat 8 (8 * b.length)

def absorb (s : State) (b : Bytes) : State :=
  if b.length < 64 then s else absorb (compress s (b.take 64)) (b.drop 64)
termination_by b.length
decreasing_by simp at *; omega

def hash (b : Bytes) : ByteVec 32 :=
  let s := absorb initial (padded b)
  .ofNat ([s.a, s.b, s.c, s.d, s.e, s.f, s.g, s.h].foldl (fun n w => UInt32.size * n + w.toNat) 0)

/-- The keyed hash of `message`, for keys of at most one block. -/
def hmac (key message : Bytes) : Bytes :=
  let key := key ++ List.replicate (64 - key.length) 0
  let inner := hash (key.map (· ^^^ 0x36) ++ message)
  (hash (key.map (· ^^^ 0x5c) ++ inner.toList)).toList

end BlockAgreement.Sha256
