import BlockAgreement.Bytes

/-! The curve `y² = x³ + 7` over the integers modulo `p`, with its base point of prime order `n`.
Points are held in Jacobian coordinates, where `(x, y, z)` stands for `(x / z², y / z³)` and `z = 0`
for the point at infinity. Multiples are taken one hexadecimal digit at a time. -/

namespace BlockAgreement.Secp256k1

def p : Nat := 0xfffffffffffffffffffffffffffffffffffffffffffffffffffffffefffffc2f

/-- The order of the base point. -/
def n : Nat := 0xfffffffffffffffffffffffffffffffebaaedce6af48a03bbfd25e8cd0364141

/-- `b ^ e` modulo `m`. -/
def powMod (b e m : Nat) : Nat :=
  if e = 0 then 1 % m
  else
    let h := powMod (b * b % m) (e / 2) m
    if e % 2 = 1 then h * b % m else h

@[inline] def mul (a b : Nat) : Nat := a * b % p

@[inline] def sub (a b : Nat) : Nat := if b ≤ a then a - b else a + p - b

@[inline] def add (a b : Nat) : Nat := if a + b < p then a + b else a + b - p

def inverse (a m : Nat) : Nat := powMod a (m - 2) m

/-- A point of the curve other than the one at infinity. -/
structure Affine where
  x : Nat
  y : Nat

structure Point where
  x : Nat
  y : Nat
  z : Nat

instance : Inhabited Point := ⟨⟨1, 1, 0⟩⟩

namespace Point

def infinity : Point := ⟨1, 1, 0⟩

def ofAffine (a : Affine) : Point := ⟨a.x, a.y, 1⟩

def toAffine? (a : Point) : Option Affine :=
  if a.z = 0 then none
  else
    let i := inverse a.z p
    let i2 := mul i i
    some ⟨mul a.x i2, mul a.y (mul i2 i)⟩

def double (a : Point) : Point :=
  let yy := mul a.y a.y
  let s := mul (4 * a.x) yy
  let m := mul (3 * a.x) a.x
  let x := sub (mul m m) (add s s)
  ⟨x, sub (mul m (sub s x)) (mul (8 * yy) yy), mul (2 * a.y) a.z⟩

def sum (a b : Point) : Point :=
  if a.z = 0 then b
  else if b.z = 0 then a
  else
    let aa := mul a.z a.z
    let bb := mul b.z b.z
    let u := mul a.x bb
    let v := mul b.x aa
    let s := mul a.y (mul bb b.z)
    let t := mul b.y (mul aa a.z)
    if u = v then
      if s = t then a.double else infinity
    else
      let h := sub v u
      let r := sub t s
      let hh := mul h h
      let hhh := mul hh h
      let w := mul u hh
      let x := sub (sub (mul r r) hhh) (add w w)
      ⟨x, sub (mul r (sub w x)) (mul s hhh), mul (mul a.z b.z) h⟩

/-- The multiples of a point by `0, 1, …, 15`. -/
def multiples (a : Point) : Array Point :=
  (List.range 15).foldl (fun t _ => t.push (t.back!.sum a)) #[infinity]

end Point

def base : Point :=
  ⟨0x79be667ef9dcbbac55a06295ce870b07029bfcdb2dce28d959f2815b16f81798,
   0x483ada7726a3c4655da4fbfc0e1108a8fd17b448a68554199c47d08ffb10d4b8, 1⟩

/-- For each of the 64 hexadecimal places, from the least significant, the multiples of the base
point by the digits at that place. -/
def baseTable : Array (Array Point) :=
  let step (acc : Array (Array Point) × Point) (_ : Nat) :=
    (acc.1.push acc.2.multiples, acc.2.double.double.double.double)
  ((List.range 64).foldl step (#[], base)).1

/-- The multiple of the base point by a scalar below `2 ^ 256`. -/
def mulBase (k : Nat) : Point :=
  (List.range 64).foldl (fun acc i => acc.sum (baseTable[i]!)[(k >>> (4 * i)) % 16]!) .infinity

/-- The multiple of a point by a scalar of at most `digits` hexadecimal digits, from the table of
the point's first multiples. -/
def mulTable (t : Array Point) : Nat → Nat → Point
  | 0, _ => .infinity
  | digits + 1, k =>
    (mulTable t digits (k / 16)).double.double.double.double.sum t[k % 16]!

/-- The multiple of a point by a scalar below `2 ^ 256`. -/
def Point.mul (a : Point) (k : Nat) : Point := mulTable a.multiples 64 k

/-- The point with this `x` coordinate whose `y` is odd or even as asked, if the curve has one. -/
def lift? (x : Nat) (odd : Bool) : Option Affine :=
  if p ≤ x then none
  else
    let c := (x * x % p * x + 7) % p
    let y := powMod c ((p + 1) / 4) p
    if mul y y ≠ c then none
    else some ⟨x, if (y % 2 == 1) == odd then y else sub 0 y⟩

end BlockAgreement.Secp256k1
