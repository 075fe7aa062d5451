/-!
# JSON values

The values of the JSON data format, and how they are written.

A text may hold strings that no sequence of characters stands for, because half of a surrogate pair
is missing. Such a string is `none`; it may be skipped but not used. Numbers are told apart by how
they are written: `3` is a natural number, `3.0`, `3e0` and `-0` are not.
-/

namespace ReplicatedLog

/-- A number as it is written. -/
inductive Json.Number where
  /-- Decimal digits only. -/
  | natural (n : Nat)
  /-- With a sign, a fraction or an exponent. -/
  | other (text : String)
  deriving DecidableEq, Repr

/-- A JSON value. -/
inductive Json where
  /-- The null value. -/
  | null
  /-- A truth value. -/
  | bool (b : Bool)
  /-- A number. -/
  | number (n : Json.Number)
  /-- A string; `none` if half of a surrogate pair is missing. -/
  | string (text : Option String)
  /-- An array. -/
  | array (items : List Json)
  /-- An object: its members in order, repeated names included. -/
  | object (members : List (Option String × Json))
  deriving Repr

namespace Json

instance : Inhabited Json := ⟨.null⟩

/-- A natural number. -/
def nat (n : Nat) : Json := .number (.natural n)

/-- A string of characters. -/
def text (s : String) : Json := .string (some s)

/-- An object with the given members. -/
def record (members : List (String × Json)) : Json :=
  .object (members.map fun (name, value) => (some name, value))

/-- A value that may be missing; null if it is. -/
def orNull {α : Type} (f : α → Json) : Option α → Json
  | none => .null
  | some a => f a

/-- The array of what the elements of a list are written as. -/
def list {α : Type} (f : α → Json) (xs : List α) : Json := .array (xs.map f)

/-! ### Writing -/

/-- A hexadecimal digit, in lower case. -/
def hexDigit (n : Nat) : Char :=
  if n < 10 then Char.ofNat ('0'.toNat + n) else Char.ofNat ('a'.toNat + (n - 10))

/-- A character of a string. Quotes, backslashes and control characters are escaped. -/
def writeChar (out : String) (c : Char) : String :=
  if c = '"' then out ++ "\\\""
  else if c = '\\' then out ++ "\\\\"
  else if c.toNat < 32 then
    ((out ++ "\\u00").push (hexDigit (c.toNat / 16))).push (hexDigit (c.toNat % 16))
  else out.push c

/-- A string in quotes. A string that no characters stand for is written as null. -/
def writeText (out : String) : Option String → String
  | none => out ++ "null"
  | some s => (s.toList.foldl writeChar (out.push '"')).push '"'

mutual

/-- Writes a value behind what is written already, without any blanks. -/
def writeTo (out : String) : Json → String
  | .null => out ++ "null"
  | .bool true => out ++ "true"
  | .bool false => out ++ "false"
  | .number (.natural n) => out ++ toString n
  | .number (.other text) => out ++ text
  | .string text => writeText out text
  | .array items => (writeItems (out.push '[') true items).push ']'
  | .object members => (writeMembers (out.push '\x7b') true members).push '\x7d'

/-- Writes the items of an array; every item but the first is preceded by a comma. -/
def writeItems (out : String) (isFirst : Bool) : List Json → String
  | [] => out
  | item :: items =>
    let out := if isFirst then out else out.push ','
    writeItems (writeTo out item) false items

/-- Writes the members of an object; every member but the first is preceded by a comma. -/
def writeMembers (out : String) (isFirst : Bool) : List (Option String × Json) → String
  | [] => out
  | (name, value) :: members =>
    let out := if isFirst then out else out.push ','
    writeMembers (writeTo ((writeText out name).push ':') value) false members

end

/-- The text of a value, without any blanks. -/
def render (j : Json) : String := writeTo "" j

end Json

end ReplicatedLog
