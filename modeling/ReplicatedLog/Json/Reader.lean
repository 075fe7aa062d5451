import ReplicatedLog.Json.Token

/-!
# Reading JSON

Builds a value from tokens. The reader keeps the arrays and objects that are open, the innermost
first, so values may nest to any depth.
-/

namespace ReplicatedLog.Json

/-- An array or object that is open. Its items or members are kept last first. -/
inductive Open where
  /-- An array with the items read so far. -/
  | array (items : List Json)
  /-- An object with the members read so far, and the name of the member being read. -/
  | object (members : List (Option String × Json)) (name : Option String)

/-- What a reader waits for. -/
inductive Awaiting where
  /-- A value. -/
  | value
  /-- The first item of an array, or its end. -/
  | firstItem
  /-- The first name of an object, or its end. -/
  | firstName (members : List (Option String × Json))
  /-- Another name of an object. -/
  | name (members : List (Option String × Json))
  /-- The colon behind a name. -/
  | colon
  /-- A comma, or the end of the innermost array or object. -/
  | comma
  /-- Nothing: the value is complete. -/
  | nothing (value : Json)

/-- A reader between two tokens. -/
structure Reading where
  /-- What it waits for. -/
  awaiting : Awaiting
  /-- The arrays and objects that are open, the innermost first. -/
  stack : List Open

namespace Reading

/-- Before the first token. -/
def start : Reading := ⟨.value, []⟩

/-- A value is complete: it becomes part of the innermost array or object, or the result. -/
def complete (value : Json) : List Open → Reading
  | [] => ⟨.nothing value, []⟩
  | .array items :: stack => ⟨.comma, .array (value :: items) :: stack⟩
  | .object members name :: stack => ⟨.comma, .object ((name, value) :: members) name :: stack⟩

/-- Takes a token where a value may begin. -/
def beginValue (stack : List Open) : Token → Option Reading
  | .openArray => some ⟨.firstItem, .array [] :: stack⟩
  | .openObject => some ⟨.firstName [], stack⟩
  | .string text => some (complete (.string text) stack)
  | .number n => some (complete (.number n) stack)
  | .bool b => some (complete (.bool b) stack)
  | .null => some (complete .null stack)
  | _ => none

/-- Takes a token; `none` if it cannot stand here. -/
def step (r : Reading) (token : Token) : Option Reading :=
  match r.awaiting, token, r.stack with
  | .value, token, stack => beginValue stack token
  | .firstItem, .closeArray, .array _ :: stack => some (complete (.array []) stack)
  | .firstItem, token, stack => beginValue stack token
  | .firstName _, .closeObject, stack => some (complete (.object []) stack)
  | .firstName members, .string name, stack => some ⟨.colon, .object members name :: stack⟩
  | .name members, .string name, stack => some ⟨.colon, .object members name :: stack⟩
  | .colon, .colon, stack => some ⟨.value, stack⟩
  | .comma, .comma, .array items :: stack => some ⟨.value, .array items :: stack⟩
  | .comma, .comma, .object members _ :: stack => some ⟨.name members, stack⟩
  | .comma, .closeArray, .array items :: stack => some (complete (.array items.reverse) stack)
  | .comma, .closeObject, .object members _ :: stack =>
    some (complete (.object members.reverse) stack)
  | _, _, _ => none

/-- The value, if it is complete. -/
def result? (r : Reading) : Option Json :=
  match r.awaiting with
  | .nothing value => some value
  | _ => none

end Reading

/-- The value that a sequence of tokens is the text of. -/
def ofTokens? (tokens : List Token) : Option Json := do
  let r ← tokens.foldlM Reading.step Reading.start
  r.result?

/-- The value that a text is the text of. -/
def parse? (text : String) : Option Json := do
  let tokens ← tokens? text.toList
  ofTokens? tokens

/-! ### Taking values apart -/

/-- The natural number, if the value is one that a word of 64 bits holds. -/
def nat? : Json → Option Nat
  | .number (.natural n) => if n < 0x10000000000000000 then some n else none
  | _ => none

/-- The string, if the value is one. -/
def text? : Json → Option String
  | .string text => text
  | _ => none

/-- The truth value, if the value is one. -/
def bool? : Json → Option Bool
  | .bool b => some b
  | _ => none

/-- The items, if the value is an array. -/
def items? : Json → Option (List Json)
  | .array items => some items
  | _ => none

/-- The members, if the value is an object. -/
def members? : Json → Option (List (Option String × Json))
  | .object members => some members
  | _ => none

/-- The value of the first member with a name, if the value is an object that has one. -/
def field? (j : Json) (name : String) : Option Json := do
  let members ← j.members?
  (members.find? fun member => member.1 == some name).map Prod.snd

/-- The items of an array, each taken apart. -/
def listOf? {α : Type} (f : Json → Option α) (j : Json) : Option (List α) := do
  let items ← j.items?
  items.mapM f

end ReplicatedLog.Json
