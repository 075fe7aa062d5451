import ReplicatedLog.Json.Reader

/-!
# Records in JSON

A record is written as an object whose members are its fields, in any order, or as an array of the
values of its fields in their order. Members with other names are passed over; a field that is
written twice is an error, and so are more values than there are fields.
-/

namespace ReplicatedLog.Json

/-- The values of a record by field; `none` for a field that is not written. -/
abbrev Fields := String → Option Json

/-- How often a name occurs among members. -/
def occurrences (members : List (Option String × Json)) (name : String) : Nat :=
  members.countP fun member => member.1 == some name

/-- The values of a record whose fields have these names. -/
def fields? (names : List String) : Json → Option Fields
  | .object members =>
    if members.all (fun member => member.1.isSome) &&
        names.all (fun name => decide (occurrences members name ≤ 1)) then
      some fun name => (members.find? fun member => member.1 == some name).map Prod.snd
    else none
  | .array items =>
    if items.length ≤ names.length then
      some fun name => ((names.zip items).find? fun field => field.1 == name).map Prod.snd
    else none
  | _ => none

/-- The value of a field that has to be written. -/
def required {α : Type} (f : Fields) (read : Json → Option α) (name : String) : Option α := do
  read (← f name)

/-- The value of a field that stands for `value` if it is not written. -/
def defaulted {α : Type} (f : Fields) (read : Json → Option α) (name : String) (value : α) :
    Option α :=
  match f name with
  | none => some value
  | some j => read j

/-- The natural number, if the value is one that 32 bits hold. -/
def half? (j : Json) : Option Nat := do
  let n ← j.nat?
  if n < 0x100000000 then some n else none

/-- A choice without content is written as its name, or as an object with that name and null. -/
def choice? : Json → Option String
  | .string text => text
  | .object [(name, .null)] => name
  | _ => none

end ReplicatedLog.Json
