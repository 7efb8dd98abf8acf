import BlockAgreement.Bytes

/-! The Keccak-256 hash: the permutation of 1600 bits over five planes of five lanes, and the
sponge with a rate of 136 bytes and the padding byte `0x01`. -/

namespace BlockAgreement.Keccak

@[inline] def rotate (x : UInt64) (n : UInt64) : UInt64 := (x <<< n) ||| (x >>> (64 - n))

/-- Five lanes with the same `y` coordinate. -/
structure Plane where
  x0 : UInt64
  x1 : UInt64
  x2 : UInt64
  x3 : UInt64
  x4 : UInt64

namespace Plane

def zero : Plane := ⟨0, 0, 0, 0, 0⟩

@[inline] def xor (p q : Plane) : Plane :=
  ⟨p.x0 ^^^ q.x0, p.x1 ^^^ q.x1, p.x2 ^^^ q.x2, p.x3 ^^^ q.x3, p.x4 ^^^ q.x4⟩

/-- Each lane takes in the lane after it where the one between them is zero. -/
@[inline] def chi (p : Plane) : Plane :=
  ⟨p.x0 ^^^ (~~~p.x1 &&& p.x2), p.x1 ^^^ (~~~p.x2 &&& p.x3), p.x2 ^^^ (~~~p.x3 &&& p.x4),
    p.x3 ^^^ (~~~p.x4 &&& p.x0), p.x4 ^^^ (~~~p.x0 &&& p.x1)⟩

def lanes (p : Plane) : List UInt64 := [p.x0, p.x1, p.x2, p.x3, p.x4]

end Plane

structure State where
  y0 : Plane
  y1 : Plane
  y2 : Plane
  y3 : Plane
  y4 : Plane

namespace State

def zero : State := ⟨.zero, .zero, .zero, .zero, .zero⟩

@[inline] def xor (s t : State) : State :=
  ⟨s.y0.xor t.y0, s.y1.xor t.y1, s.y2.xor t.y2, s.y3.xor t.y3, s.y4.xor t.y4⟩

/-- Every lane takes in the parities of the two columns beside its own. -/
@[inline] def theta (s : State) : State :=
  let c := (((s.y0.xor s.y1).xor s.y2).xor s.y3).xor s.y4
  let d : Plane := ⟨c.x4 ^^^ rotate c.x1 1, c.x0 ^^^ rotate c.x2 1, c.x1 ^^^ rotate c.x3 1,
    c.x2 ^^^ rotate c.x4 1, c.x3 ^^^ rotate c.x0 1⟩
  ⟨s.y0.xor d, s.y1.xor d, s.y2.xor d, s.y3.xor d, s.y4.xor d⟩

/-- The lanes are rotated, each by its own amount, and move to their new places. -/
@[inline] def rhoPi (s : State) : State where
  y0 := ⟨s.y0.x0, rotate s.y1.x1 44, rotate s.y2.x2 43, rotate s.y3.x3 21, rotate s.y4.x4 14⟩
  y1 := ⟨rotate s.y0.x3 28, rotate s.y1.x4 20, rotate s.y2.x0 3, rotate s.y3.x1 45,
    rotate s.y4.x2 61⟩
  y2 := ⟨rotate s.y0.x1 1, rotate s.y1.x2 6, rotate s.y2.x3 25, rotate s.y3.x4 8,
    rotate s.y4.x0 18⟩
  y3 := ⟨rotate s.y0.x4 27, rotate s.y1.x0 36, rotate s.y2.x1 10, rotate s.y3.x2 15,
    rotate s.y4.x3 56⟩
  y4 := ⟨rotate s.y0.x2 62, rotate s.y1.x3 55, rotate s.y2.x4 39, rotate s.y3.x0 41,
    rotate s.y4.x1 2⟩

@[inline] def chi (s : State) : State :=
  ⟨s.y0.chi, s.y1.chi, s.y2.chi, s.y3.chi, s.y4.chi⟩

@[inline] def iota (c : UInt64) (s : State) : State := { s with y0.x0 := s.y0.x0 ^^^ c }

def round (s : State) (c : UInt64) : State := iota c s.theta.rhoPi.chi

end State

def roundConstants : List UInt64 :=
  [0x0000000000000001, 0x0000000000008082, 0x800000000000808a, 0x8000000080008000,
   0x000000000000808b, 0x0000000080000001, 0x8000000080008081, 0x8000000000008009,
   0x000000000000008a, 0x0000000000000088, 0x0000000080008009, 0x000000008000000a,
   0x000000008000808b, 0x800000000000008b, 0x8000000000008089, 0x8000000000008003,
   0x8000000000008002, 0x8000000000000080, 0x000000000000800a, 0x800000008000000a,
   0x8000000080008081, 0x8000000000008080, 0x0000000080000001, 0x8000000080008008]

def permute (s : State) : State := roundConstants.foldl State.round s

/-- The bytes absorbed before each permutation. -/
def rate : Nat := 136

/-- Eight bytes, the least significant first. -/
def laneOfBytes (b : Bytes) : UInt64 := b.foldr (fun x n => (n <<< 8) ||| x.toUInt64) 0

def bytesOfLane (x : UInt64) : Bytes :=
  (List.range 8).map fun i => (x >>> (8 * UInt64.ofNat i)).toUInt8

/-- The next five lanes and the bytes after them. -/
def takePlane (b : Bytes) : Plane × Bytes :=
  (⟨laneOfBytes (b.take 8), laneOfBytes ((b.drop 8).take 8), laneOfBytes ((b.drop 16).take 8),
    laneOfBytes ((b.drop 24).take 8), laneOfBytes ((b.drop 32).take 8)⟩, b.drop 40)

/-- A block of at most `rate` bytes as a state, the missing lanes zero. -/
def stateOfBytes (b : Bytes) : State :=
  let (y0, b) := takePlane b
  let (y1, b) := takePlane b
  let (y2, b) := takePlane b
  let (y3, b) := takePlane b
  let (y4, _) := takePlane b
  ⟨y0, y1, y2, y3, y4⟩

/-- The last block, with a one bit right after the message and a one bit at the end of the block. -/
def padded (b : Bytes) : Bytes :=
  if b.length + 1 = rate then b ++ [0x81]
  else b ++ 0x01 :: List.replicate (rate - 2 - b.length) 0 ++ [0x80]

def absorb (s : State) (b : Bytes) : State :=
  if b.length < rate then permute (s.xor (stateOfBytes (padded b)))
  else absorb (permute (s.xor (stateOfBytes (b.take rate)))) (b.drop rate)
termination_by b.length
decreasing_by simp [rate] at *; omega

def hash (b : Bytes) : Digest :=
  .ofNat (Bytes.toNat (((absorb .zero b).y0.lanes.take 4).flatMap bytesOfLane))

end BlockAgreement.Keccak
