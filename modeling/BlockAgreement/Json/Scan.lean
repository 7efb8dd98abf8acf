import BlockAgreement.Bytes

/-! Scanning a text from its front. A scan gives a result or fails, and either way leaves the text
from the place where it stopped, so that what follows a failed attempt is told too. -/

namespace BlockAgreement.Json

/-- Goes over the bytes of a text. -/
abbrev Scan := OptionT (StateM Bytes)

namespace Scan

variable {σ α : Type}

/-- The character of a byte. A byte above 127 is none by itself, and only strings may hold it. -/
def charOf (b : UInt8) : Char := Char.ofNat b.toNat

/-- The next character, which stays in place. -/
def peek? : Scan (Option Char) := do return (← get).head?.map charOf

def next : Scan Char := do
  match ← get with
  | [] => failure
  | b :: rest =>
    set rest
    return charOf b

/-- Takes the next character, even if it is not the one expected. -/
def expect (c : Char) : Scan Unit := do
  if (← next) ≠ c then failure

def word (s : String) : Scan Unit := s.toList.forM expect

def takeWhile (p : Char → Bool) : Scan (List Char) := do
  let text ← get
  set (text.dropWhile fun b => p (charOf b))
  return (text.takeWhile fun b => p (charOf b)).map charOf

def isBlank (c : Char) : Bool := c = ' ' || c = '\n' || c = '\t' || c = '\r'

def blanks : Scan Unit := discard (takeWhile isBlank)

/-- What a failed attempt has taken stays taken. -/
def attempt (r : Scan α) : Scan (Option α) := (some <$> r) <|> pure none

def iterate (step : σ → Scan (σ ⊕ α)) : Bytes → σ → Scan α
  | [], _ => failure
  | _ :: fuel, s => do
    match ← step s with
    | .inl s => iterate step fuel s
    | .inr a => return a

/-- Repeats a step until it gives a result. All steps but the last take a byte at least, so there
are at most as many as there are bytes, and one. -/
def repeatUntil (step : σ → Scan (σ ⊕ α)) (s : σ) : Scan α := do
  iterate step (0 :: (← get)) s

/-- Whether another entry follows. All but the first have a comma in front, which is taken. -/
def hasEntry (close : Char) (first : Bool) : Scan Bool := do
  blanks
  let c ← peek?
  if c = some close then return false
  else if first then return true
  else if c = some ',' then
    discard next
    blanks
    if (← peek?) = some close then failure
    return true
  else failure

/-- The closing character, after blanks. -/
def ending (close : Char) : Scan Unit := do
  blanks
  expect close

/-- Entries between commas, each added to what was read before, and the closing character. -/
def entries (close : Char) (entry : σ → Scan σ) (s : σ) : Scan σ := do
  let s ← repeatUntil (fun (first, s) => do
    if ← hasEntry close first then return .inl (false, ← entry s) else return .inr s) (true, s)
  ending close
  return s

/-- The result of a scan that takes the whole text, but for blanks at its end. -/
def whole? (r : Scan α) (text : String) : Option α :=
  let (result, rest) := (do let a ← r; blanks; return a : Scan α).run text.toUTF8.toList
  if rest.isEmpty then result else none

end Scan

end BlockAgreement.Json
