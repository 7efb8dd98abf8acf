import BlockAgreement.Json.Scan

/-! The parts of a text that hold no other parts. A part is scanned to its end before anyone asks
whether it is of the kind that its place calls for. -/

namespace BlockAgreement.Json

inductive Token
  | null
  | bool (b : Bool)
  /-- A number, kept only if it is written as a natural one. -/
  | number (n : Option Nat)
  | text (s : String)

namespace Scan

/-! ### Numbers -/

def digits : Scan (List Char) := takeWhile Char.isDigit

def digitValue (c : Char) : Nat := c.toNat - 48

/-- The digits of an exponent. A digit that takes it to the limit ends the scan in failure. -/
def exponent (limit : Option Nat) : Scan Unit := do
  let first ← next
  unless first.isDigit do failure
  repeatUntil (fun n => do
    match (← peek?).filter Char.isDigit with
    | none => return .inr ()
    | some c =>
      discard next
      let n := 10 * n + digitValue c
      if limit.any (· ≤ n) then failure
      return .inl n) (digitValue first)

/-- A number without leading zeros, and with a digit on both sides of a point. The limit is for
exponents that make a number grow. -/
def number (limit : Option Nat) : Scan (Option Nat) := do
  let negative := (← peek?) = some '-'
  if negative then discard next
  let first ← next
  unless first.isDigit do failure
  let more ← if first = '0' then pure [] else digits
  if first = '0' ∧ (← peek?).any Char.isDigit then failure
  let pointed := (← peek?) = some '.'
  let places ← if pointed then discard next; digits else pure []
  if pointed ∧ places.isEmpty then failure
  let whole := first :: more
  let scaled := (← peek?).any fun c => c = 'e' || c = 'E'
  if scaled then
    discard next
    let sign ← peek?
    if sign = some '+' ∨ sign = some '-' then discard next
    let isZero := (whole ++ places).all (· = '0')
    exponent (if isZero ∨ sign = some '-' then none else limit)
  if negative ∨ pointed ∨ scaled then return none
  return some (whole.foldl (fun n c => 10 * n + digitValue c) 0)

/-! ### Strings -/

/-- A unit of 16 bits in four digits, which are taken together. -/
def unit : Scan Nat := do
  let text ← get
  set (text.drop 4)
  match (text.take 4).mapM fun b => Bytes.hexValue? (charOf b) with
  | some [a, b, c, d] => return 4096 * a + 256 * b + 16 * c + d
  | _ => failure

/-- The character of one unit, or of two that are a pair. Half of a pair alone is no character. -/
def unicode : Scan Char := do
  let n ← unit
  if n < 0xd800 ∨ 0xe000 ≤ n then return Char.ofNat n
  else if 0xdc00 ≤ n then failure
  else
    word "\\u"
    let m ← unit
    unless 0xdc00 ≤ m ∧ m < 0xe000 do failure
    return Char.ofNat (0x10000 + 1024 * (n - 0xd800) + (m - 0xdc00))

/-- The character that a backslash and what follows it stand for. -/
def escape (unicode : Scan Char) : Scan Char := do
  match ← next with
  | '"' => return '"'
  | '\\' => return '\\'
  | '/' => return '/'
  | 'b' => return '\x08'
  | 'f' => return '\x0c'
  | 'n' => return '\n'
  | 'r' => return '\r'
  | 't' => return '\t'
  | 'u' => unicode
  | _ => failure

/-- The characters up to the closing quote. -/
def quoted (unicode : Scan Char) : Scan String :=
  repeatUntil (fun s => do
    match ← next with
    | '"' => return .inr (String.ofList s.reverse)
    | '\\' => return .inl ((← escape unicode) :: s)
    | c =>
      if c.toNat < 0x20 then failure
      return .inl (c :: s)) []

/-! ### Tokens -/

/-- The next token. What can be none is left in place. -/
def token : Scan Token := do
  blanks
  match ← peek? with
  | some 'n' => word "null"; return .null
  | some 't' => word "true"; return .bool true
  | some 'f' => word "false"; return .bool false
  | some '"' => discard next; return .text (← quoted unicode)
  | some c =>
    unless c = '-' ∨ c.isDigit do failure
    return .number (← number (some 0x80000000))
  | none => failure

/-! ### Values of any kind -/

/-- Passes over a string, which may hold half of a pair. -/
def skipString : Scan Unit := do
  expect '"'
  discard (quoted (do discard unit; return ' '))

/-- Passes over a value that is not nested deeper than there are bytes of fuel. -/
def skipWithin : Bytes → Scan Unit
  | [] => failure
  | _ :: fuel => do
    blanks
    match ← peek? with
    | some '[' =>
      discard next
      entries ']' (fun _ => skipWithin fuel) ()
    | some '\x7b' =>
      discard next
      entries '\x7d' (fun _ => do
        skipString
        ending ':'
        skipWithin fuel) ()
    | some '"' => skipString
    | some c => if c = '-' ∨ c.isDigit then discard (number none) else discard token
    | none => failure

/-- Passes over a value, which is not nested deeper than there are bytes left. -/
def skip : Scan Unit := do skipWithin (← get)

end Scan

end BlockAgreement.Json
