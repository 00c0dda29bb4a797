import Chiptune.Rounding

/-!
# Scanning JSON text

Scanners for the parts of JSON text: blanks, words, strings and numbers. A
scanner takes the characters that are left and gives a value with the rest, or
the reason why the text is refused. The first fault from the left decides.

Strings and numbers are scanned in two ways. A value that is read is scanned
strictly: surrogate escapes come in pairs and a number lies in the range of
binary64. A value that is passed over is only held to the grammar.
-/

set_option autoImplicit false

namespace Chiptune.Json

/-- Why a text is refused: it is not JSON, it is not of the expected shape, or
it ends too early. -/
inductive ReadError where
  | malformed
  | mismatch
  | truncated
  deriving DecidableEq, Repr

/-- A scanner for values of type `α`. -/
abbrev Scan (α : Type) := List Char → Except ReadError (α × List Char)

/-- How closely a value is looked at. -/
inductive Care where
  | strict
  | lenient
  deriving DecidableEq, Repr

/-! ## Blanks and words -/

def isBlank (c : Char) : Bool := c == ' ' || c == '\t' || c == '\n' || c == '\r'

def skipBlanks (cs : List Char) : List Char := cs.dropWhile isBlank

/-- The rest after the given characters. -/
def expect : List Char → List Char → Except ReadError (List Char)
  | [], cs => .ok cs
  | _ :: _, [] => .error .truncated
  | w :: ws, c :: cs => if c = w then expect ws cs else .error .malformed

/-- The rest after one of the words `null`, `true` and `false`. -/
def skipWord : List Char → Except ReadError (List Char)
  | 'n' :: cs => expect ['u', 'l', 'l'] cs
  | 't' :: cs => expect ['r', 'u', 'e'] cs
  | 'f' :: cs => expect ['a', 'l', 's', 'e'] cs
  | [] => .error .truncated
  | _ :: _ => .error .malformed

/-! ## Strings -/

def hexDigit? (c : Char) : Option Nat :=
  if '0' ≤ c ∧ c ≤ '9' then some (c.toNat - '0'.toNat)
  else if 'a' ≤ c ∧ c ≤ 'f' then some (c.toNat - 'a'.toNat + 10)
  else if 'A' ≤ c ∧ c ≤ 'F' then some (c.toNat - 'A'.toNat + 10)
  else none

/-- The number of four hexadecimal digits. -/
def hexWord? (a b c d : Char) : Option Nat := do
  return (((← hexDigit? a) * 16 + (← hexDigit? b)) * 16 + (← hexDigit? c)) * 16 + (← hexDigit? d)

/-- The fault of an escape with fewer than four characters after it. The text
has ended if fewer than four bytes are left. -/
def shortEscape (cs : List Char) : ReadError :=
  if (String.ofList cs).utf8ByteSize < 4 then .truncated else .malformed

/-- The character of an escape of one letter. -/
def plainEscape? (c : Char) : Option Char :=
  match c with
  | '"' => some '"'
  | '\\' => some '\\'
  | '/' => some '/'
  | 'b' => some '\x08'
  | 'f' => some '\x0c'
  | 'n' => some '\n'
  | 'r' => some '\r'
  | 't' => some '\t'
  | _ => none

def isLeading (n : Nat) : Bool := 0xD800 ≤ n && n ≤ 0xDBFF

def isTrailing (n : Nat) : Bool := 0xDC00 ≤ n && n ≤ 0xDFFF

/-- The character of a pair of surrogates. -/
def pairChar (leading trailing : Nat) : Char :=
  Char.ofNat ((leading - 0xD800) * 0x400 + (trailing - 0xDC00) + 0x10000)

/-- The fault of a leading surrogate without a trailing one. -/
def brokenPair : List Char → ReadError
  | [] => .truncated
  | c :: cs =>
      if c = '\\' then
        match cs with
        | [] => .truncated
        | 'u' :: cs => if cs.length < 4 then shortEscape cs else .malformed
        | _ => .malformed
      else .malformed

/-- The characters of a string after its opening quote, behind those in `acc`. -/
def textFrom (acc : List Char) : List Char → Except ReadError (String × List Char)
  | [] => .error .truncated
  | c :: cs =>
      if c = '"' then .ok (String.ofList acc.reverse, cs)
      else if c = '\\' then
        match cs with
        | [] => .error .truncated
        | e :: cs =>
            if e = 'u' then
              match cs with
              | a :: b :: c :: d :: cs =>
                  match hexWord? a b c d with
                  | none => .error .malformed
                  | some n =>
                      if isTrailing n then .error .malformed
                      else if isLeading n then
                        match cs with
                        | '\\' :: 'u' :: a :: b :: c :: d :: rest =>
                            match hexWord? a b c d with
                            | none => .error .malformed
                            | some m =>
                                if isTrailing m then textFrom (pairChar n m :: acc) rest
                                else .error .malformed
                        | cs => .error (brokenPair cs)
                      else textFrom (Char.ofNat n :: acc) cs
              | cs => .error (shortEscape cs)
            else
              match plainEscape? e with
              | some ch => textFrom (ch :: acc) cs
              | none => .error .malformed
      else if c.toNat < 32 then .error .malformed
      else textFrom (c :: acc) cs

/-- The rest after a string whose opening quote was taken. -/
def skipText : List Char → Except ReadError (List Char)
  | [] => .error .truncated
  | c :: cs =>
      if c = '"' then .ok cs
      else if c = '\\' then
        match cs with
        | [] => .error .truncated
        | e :: cs =>
            if e = 'u' then
              match cs with
              | a :: b :: c :: d :: cs =>
                  match hexWord? a b c d with
                  | none => .error .malformed
                  | some _ => skipText cs
              | cs => .error (shortEscape cs)
            else
              match plainEscape? e with
              | some _ => skipText cs
              | none => .error .malformed
      else if c.toNat < 32 then .error .malformed
      else skipText cs

/-! ## Numbers -/

/-- A number as it is written. -/
structure Numeral where
  negative : Bool
  whole : List Char
  fraction : List Char
  exponentNegative : Bool
  exponent : List Char
  isReal : Bool
  deriving DecidableEq, Repr

def splitDigits (cs : List Char) : List Char × List Char :=
  (cs.takeWhile Char.isDigit, cs.dropWhile Char.isDigit)

/-- The fault where a digit has to stand. Text that ends there is cut short
only in a number that is read. -/
def noDigit (care : Care) : List Char → ReadError
  | [] => match care with
      | .strict => .truncated
      | .lenient => .malformed
  | _ :: _ => .malformed

/-- The digits of a whole number, of which a leading zero is the only one. -/
def wholeDigits (care : Care) : List Char → Except ReadError (List Char × List Char)
  | [] => .error (noDigit care [])
  | c :: cs =>
      if c = '0' then
        match cs with
        | [] => .ok (['0'], [])
        | d :: cs => if d.isDigit then .error .malformed else .ok (['0'], d :: cs)
      else if c.isDigit then
        let (digits, rest) := splitDigits (c :: cs)
        .ok (digits, rest)
      else .error .malformed

/-- One digit or more. -/
def someDigits (care : Care) (cs : List Char) : Except ReadError (List Char × List Char) :=
  let (digits, rest) := splitDigits cs
  if digits.isEmpty then .error (noDigit care cs) else .ok (digits, rest)

/-- A sign, true for minus, and the rest. -/
def sign : List Char → Bool × List Char
  | '+' :: cs => (false, cs)
  | '-' :: cs => (true, cs)
  | cs => (false, cs)

/-- The exponent of a number, if there is one. -/
def exponentPart (care : Care) (n : Numeral) :
    List Char → Except ReadError (Numeral × List Char)
  | [] => .ok (n, [])
  | c :: cs =>
      if c = 'e' ∨ c = 'E' then do
        let (exponentNegative, cs) := sign cs
        let (exponent, cs) ← someDigits care cs
        return ({ n with exponentNegative, exponent, isReal := true }, cs)
      else .ok (n, c :: cs)

/-- The fraction and the exponent of a number, as far as they are there. -/
def fractionPart (care : Care) (n : Numeral) :
    List Char → Except ReadError (Numeral × List Char)
  | [] => .ok (n, [])
  | c :: cs =>
      if c = '.' then do
        let (fraction, cs) ← someDigits care cs
        exponentPart care { n with fraction, isReal := true } cs
      else exponentPart care n (c :: cs)

/-- A number, from its sign on. -/
def numeral (care : Care) (cs : List Char) : Except ReadError (Numeral × List Char) := do
  let (negative, cs) :=
    match cs with
    | '-' :: cs => (true, cs)
    | cs => (false, cs)
  let (whole, cs) ← wholeDigits care cs
  fractionPart care ⟨negative, whole, [], false, [], false⟩ cs

def digitValue (c : Char) : Nat := c.toNat - '0'.toNat

/-- The value of decimal digits. -/
def digitsValue (ds : List Char) : Nat := ds.foldl (fun n d => n * 10 + digitValue d) 0

/-- Digits appended to a significand as long as it fits in 64 bits, and how
many digits were left over. -/
def absorb : Nat → List Char → Nat × Nat
  | n, [] => (n, 0)
  | n, d :: ds =>
      let m := n * 10 + digitValue d
      if m < UInt64.size then absorb m ds else (n, (d :: ds).length)

/-- The rounded significand times the rounded power of ten stays below the
point from which binary64 products are infinite. -/
def inRange (significand : Nat) (exponent : Int) : Bool :=
  if significand = 0 ∨ exponent < 0 then true
  else if 308 < exponent then false
  else
    Rounding.significant significand * Rounding.significant (Nat.pow 10 exponent.toNat) <
      (1 <<< 1024) - (1 <<< 970)

/-- The number lies in the range of binary64. -/
def Numeral.isFinite (n : Numeral) : Bool :=
  let (whole, dropped) := absorb 0 n.whole
  let (significand, ignored) := absorb whole n.fraction
  let shift : Int := (dropped : Int) - ((n.fraction.length - ignored : Nat) : Int)
  let exponent := digitsValue n.exponent
  if exponent < 0x80000000 then
    inRange significand (if n.exponentNegative then shift - exponent else shift + exponent)
  else n.exponentNegative || significand == 0

/-- The natural number of a numeral without sign, fraction and exponent that
fits in 64 bits. -/
def Numeral.natural? (n : Numeral) : Option Nat :=
  if n.negative || n.isReal then none
  else
    let value := digitsValue n.whole
    if value < UInt64.size then some value else none

/-- A number that is read: its natural value, if it has one. -/
def number (cs : List Char) : Except ReadError (Option Nat × List Char) := do
  let (n, rest) ← numeral .strict cs
  if n.isFinite then return (n.natural?, rest) else throw .malformed

/-- A character that starts a number. -/
def startsNumber (c : Char) : Bool := c == '-' || c.isDigit

end Chiptune.Json
