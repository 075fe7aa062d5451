import ReplicatedLog.Json

/-!
# Tokens of JSON

Splits a text into the tokens of JSON: brackets, commas, colons, literals, numbers and strings.
Blanks, tabs and line ends separate tokens; anything else that is not part of a token makes the
text unreadable.
-/

namespace ReplicatedLog.Json

/-- A token. -/
inductive Token where
  /-- The bracket that opens an array. -/
  | openArray
  /-- The bracket that closes an array. -/
  | closeArray
  /-- The brace that opens an object. -/
  | openObject
  /-- The brace that closes an object. -/
  | closeObject
  /-- Between a name and its value. -/
  | colon
  /-- Between two items or members. -/
  | comma
  /-- A string; `none` if half of a surrogate pair is missing. -/
  | string (text : Option String)
  /-- A number. -/
  | number (n : Number)
  /-- The literals `true` and `false`. -/
  | bool (b : Bool)
  /-- The literal `null`. -/
  | null
  deriving DecidableEq, Repr

/-! ### Strings -/

/-- The value of a hexadecimal digit. -/
def hexValue? (c : Char) : Option Nat :=
  if '0' ≤ c ∧ c ≤ '9' then some (c.toNat - '0'.toNat)
  else if 'a' ≤ c ∧ c ≤ 'f' then some (c.toNat - 'a'.toNat + 10)
  else if 'A' ≤ c ∧ c ≤ 'F' then some (c.toNat - 'A'.toNat + 10)
  else none

/-- The number that four hexadecimal digits stand for. -/
def hexUnit? (a b c d : Char) : Option Nat := do
  let a ← hexValue? a
  let b ← hexValue? b
  let c ← hexValue? c
  let d ← hexValue? d
  return ((a * 16 + b) * 16 + c) * 16 + d

/-- The character that a backslash and this character stand for. -/
def escaped? : Char → Option Char
  | '"' => some '"'
  | '\\' => some '\\'
  | '/' => some '/'
  | 'b' => some '\x08'
  | 'f' => some '\x0c'
  | 'n' => some '\n'
  | 'r' => some '\r'
  | 't' => some '\t'
  | _ => none

/-- Whether a number is the first half of a surrogate pair. -/
def isHighSurrogate (unit : Nat) : Bool := 0xD800 ≤ unit && unit < 0xDC00

/-- Whether a number is the second half of a surrogate pair. -/
def isLowSurrogate (unit : Nat) : Bool := 0xDC00 ≤ unit && unit < 0xE000

/-- The character that a surrogate pair stands for. -/
def ofSurrogates (high low : Nat) : Char :=
  Char.ofNat (0x10000 + (high - 0xD800) * 0x400 + (low - 0xDC00))

/-- A string that was read in part. -/
structure StringPart where
  /-- The characters so far; `none` if half of a surrogate pair is missing. -/
  text : Option String := some ""
  /-- The first half of a surrogate pair that was just read. -/
  high : Option Nat := none

namespace StringPart

/-- The string, at its end. -/
def finish (p : StringPart) : Option String := if p.high.isSome then none else p.text

/-- Adds a character. -/
def push (p : StringPart) (c : Char) : StringPart :=
  if p.high.isSome then ⟨none, none⟩ else ⟨p.text.map fun s => s.push c, none⟩

/-- Adds an escaped number. The two halves of a surrogate pair make one character. -/
def pushUnit (p : StringPart) (unit : Nat) : StringPart :=
  match p.high with
  | some high =>
    if isLowSurrogate unit then ⟨p.text.map fun s => s.push (ofSurrogates high unit), none⟩
    else ⟨none, none⟩
  | none =>
    if isHighSurrogate unit then ⟨p.text, some unit⟩
    else if isLowSurrogate unit then ⟨none, none⟩
    else p.push (Char.ofNat unit)

end StringPart

/-- Reads a string behind its opening quote. -/
def stringToken (part : StringPart) : List Char → Option (Option String × List Char)
  | [] => none
  | '"' :: rest => some (part.finish, rest)
  | '\\' :: 'u' :: a :: b :: c :: d :: rest =>
    match hexUnit? a b c d with
    | none => none
    | some unit => stringToken (part.pushUnit unit) rest
  | '\\' :: c :: rest =>
    match escaped? c with
    | none => none
    | some c => stringToken (part.push c) rest
  | c :: rest =>
    if c.toNat < 32 || c == '\\' then none else stringToken (part.push c) rest

/-! ### Numbers -/

/-- Whether the character is a decimal digit. -/
def isDigit (c : Char) : Bool := '0' ≤ c && c ≤ '9'

/-- The value of decimal digits. -/
def digitsValue (digits : List Char) : Nat :=
  digits.foldl (fun n c => n * 10 + (c.toNat - '0'.toNat)) 0

/-- At least one digit at the front, with those that follow it. -/
def someDigits? (cs : List Char) : Option (List Char × List Char) :=
  let digits := cs.takeWhile isDigit
  if digits.isEmpty then none else some (digits, cs.dropWhile isDigit)

/-- The digits before the fraction: a zero alone, or digits that do not begin with a zero. -/
def wholeDigits? (cs : List Char) : Option (List Char × List Char) := do
  let (digits, rest) ← someDigits? cs
  if digits.head? = some '0' ∧ digits.length ≠ 1 then none else some (digits, rest)

/-- The fraction at the front, empty if there is none. -/
def fraction? : List Char → Option (List Char × List Char)
  | '.' :: rest => do
    let (digits, rest) ← someDigits? rest
    return ('.' :: digits, rest)
  | cs => some ([], cs)

/-- The sign of an exponent, if there is one. -/
def exponentSign : List Char → List Char × List Char
  | '+' :: rest => (['+'], rest)
  | '-' :: rest => (['-'], rest)
  | cs => ([], cs)

/-- The exponent at the front, empty if there is none. -/
def exponent? : List Char → Option (List Char × List Char)
  | c :: rest =>
    if c = 'e' ∨ c = 'E' then do
      let (sign, rest) := exponentSign rest
      let (digits, rest) ← someDigits? rest
      return (c :: (sign ++ digits), rest)
    else some ([], c :: rest)
  | [] => some ([], [])

/-- Reads a number behind its sign. -/
def unsignedNumber? (negative : Bool) (cs : List Char) : Option (Number × List Char) := do
  let (whole, rest) ← wholeDigits? cs
  let (fraction, rest) ← fraction? rest
  let (exponent, rest) ← exponent? rest
  if negative || !fraction.isEmpty || !exponent.isEmpty then
    let sign := if negative then ['-'] else []
    return (.other (String.ofList (sign ++ whole ++ fraction ++ exponent)), rest)
  else return (.natural (digitsValue whole), rest)

/-! ### Texts -/

/-- Whether the character may stand between tokens. -/
def isBlank (c : Char) : Bool := c == ' ' || c == '\n' || c == '\t' || c == '\r'

/-- The token at the front of a text that does not begin with a blank. -/
def token? : List Char → Option (Token × List Char)
  | '[' :: rest => some (.openArray, rest)
  | ']' :: rest => some (.closeArray, rest)
  | '\x7b' :: rest => some (.openObject, rest)
  | '\x7d' :: rest => some (.closeObject, rest)
  | ':' :: rest => some (.colon, rest)
  | ',' :: rest => some (.comma, rest)
  | 't' :: 'r' :: 'u' :: 'e' :: rest => some (.bool true, rest)
  | 'f' :: 'a' :: 'l' :: 's' :: 'e' :: rest => some (.bool false, rest)
  | 'n' :: 'u' :: 'l' :: 'l' :: rest => some (.null, rest)
  | '"' :: rest => (stringToken {} rest).map
      fun (text, rest) => (.string text, rest)
  | '-' :: rest => (unsignedNumber? true rest).map fun (n, rest) => (.number n, rest)
  | cs => (unsignedNumber? false cs).map fun (n, rest) => (.number n, rest)

/-- Reads tokens and puts them behind those already read, which are given last first. There are no
more than `limit` tokens and blanks. -/
def tokensFrom : (limit : Nat) → (done : List Token) → List Char → Option (List Token)
  | _, done, [] => some done.reverse
  | 0, _, _ :: _ => none
  | limit + 1, done, c :: cs =>
    if isBlank c then tokensFrom limit done cs
    else
      match token? (c :: cs) with
      | none => none
      | some (token, rest) => tokensFrom limit (token :: done) rest

/-- The tokens of a text. -/
def tokens? (cs : List Char) : Option (List Token) := tokensFrom cs.length [] cs

end ReplicatedLog.Json
