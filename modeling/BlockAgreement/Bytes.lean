/-! Byte strings. `Bytes` is a plain list of bytes, `ByteVec n` one of exactly `n` bytes. Both are
read as big-endian numbers and as hexadecimal text. -/

namespace BlockAgreement

abbrev Bytes := List UInt8

namespace Bytes

/-- The number whose base 256 digits are the bytes, the most significant first. -/
def toNat (b : Bytes) : Nat := b.foldl (fun n x => 256 * n + x.toNat) 0

/-- Digits and the number in front of them can be told from the number they make, once their count
is known. -/
theorem foldl_digits_injective {a b : Bytes} {k l : Nat} (hl : a.length = b.length)
    (h : a.foldl (fun n x => 256 * n + x.toNat) k = b.foldl (fun n x => 256 * n + x.toNat) l) :
    k = l ∧ a = b := by
  induction a generalizing b k l with
  | nil =>
    cases List.eq_nil_of_length_eq_zero hl.symm
    exact ⟨h, rfl⟩
  | cons x a ih =>
    cases b with
    | nil => simp at hl
    | cons y b =>
      obtain ⟨hk, rfl⟩ := ih (Nat.succ.inj hl) h
      have hk : 256 * k + x.toNat = 256 * l + y.toNat := hk
      have hx := x.toNat_lt
      have hy := y.toNat_lt
      have hxy : x.toNat = y.toNat := by omega
      exact ⟨by omega, by rw [UInt8.toNat_inj.1 hxy]⟩

theorem toNat_injective {a b : Bytes} (hl : a.length = b.length) (h : toNat a = toNat b) :
    a = b :=
  (foldl_digits_injective hl h).2

/-- The last `n` base 256 digits of `k`, the most significant first. -/
def ofNat : Nat → Nat → Bytes
  | 0, _ => []
  | n + 1, k => ofNat n (k / 256) ++ [UInt8.ofNat (k % 256)]

@[simp] theorem length_ofNat (n k : Nat) : (ofNat n k).length = n := by
  induction n generalizing k with
  | zero => rfl
  | succ n ih => simp [ofNat, ih]

/-- The base 256 digits of `k` with no leading zero; none at all for zero. -/
def minimal (k : Nat) : Bytes :=
  if k = 0 then [] else minimal (k / 256) ++ [UInt8.ofNat (k % 256)]

def hexDigit (n : Nat) : Char := if n < 10 then Char.ofNat (48 + n) else Char.ofNat (87 + n)

/-- Two lower-case digits a byte, without a leading marker. -/
def hexDigits (b : Bytes) : List Char :=
  b.flatMap fun x => [hexDigit (x.toNat / 16), hexDigit (x.toNat % 16)]

def toHex (b : Bytes) : String := "0x" ++ String.ofList b.hexDigits

def hexValue? (c : Char) : Option Nat :=
  if '0' ≤ c ∧ c ≤ '9' then some (c.toNat - 48)
  else if 'a' ≤ c ∧ c ≤ 'f' then some (c.toNat - 87)
  else if 'A' ≤ c ∧ c ≤ 'F' then some (c.toNat - 55)
  else none

/-- Whole bytes only, in either case. -/
def ofHexDigits? : List Char → Option Bytes
  | [] => some []
  | a :: b :: rest => do
    let x ← hexValue? a
    let y ← hexValue? b
    let tail ← ofHexDigits? rest
    return UInt8.ofNat (16 * x + y) :: tail
  | _ => none

/-- The leading `0x` or `0X` may be missing. -/
def ofHex? (s : String) : Option Bytes :=
  match s.toList with
  | '0' :: 'x' :: digits => ofHexDigits? digits
  | '0' :: 'X' :: digits => ofHexDigits? digits
  | digits => ofHexDigits? digits

end Bytes

/-- A byte string of exactly `n` bytes. -/
structure ByteVec (n : Nat) where
  toList : Bytes
  length_toList : toList.length = n
deriving DecidableEq

namespace ByteVec

variable {n : Nat}

def ofList? (b : Bytes) : Option (ByteVec n) :=
  if h : b.length = n then some ⟨b, h⟩ else none

def ofNat (k : Nat) : ByteVec n := ⟨Bytes.ofNat n k, Bytes.length_ofNat n k⟩

def toNat (v : ByteVec n) : Nat := v.toList.toNat

def toHex (v : ByteVec n) : String := Bytes.toHex v.toList

def zero : ByteVec n := ⟨List.replicate n 0, List.length_replicate⟩

instance : Inhabited (ByteVec n) := ⟨zero⟩

instance : Hashable (ByteVec n) := ⟨fun v => hash v.toList⟩

@[ext] theorem ext {v w : ByteVec n} (h : v.toList = w.toList) : v = w := by
  cases v; cases w; simp_all

theorem toNat_injective {v w : ByteVec n} (h : v.toNat = w.toNat) : v = w :=
  ext (Bytes.toNat_injective (v.length_toList.trans w.length_toList.symm) h)

theorem ofList?_toList (v : ByteVec n) : ofList? v.toList = some v := by
  simp [ofList?, v.length_toList]

end ByteVec

/-- A 256-bit hash. -/
abbrev Digest := ByteVec 32

/-- The short name of a public key. -/
abbrev Address := ByteVec 20

end BlockAgreement
