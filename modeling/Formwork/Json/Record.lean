import Formwork.Json.Document

/-!
# Records

A record is a document with named fields. It is written as an object, or as an array of its fields
in order; an object may hold members that the record does not know, but no known one twice.
-/

namespace Formwork

namespace Json

namespace Record

/-- The values of the members with a given name. -/
def valuesOf (name : String) (members : List (Option String × Document)) : List Document :=
  members.filterMap fun (found, value) => if found == some name then some value else none

/-- The value of a field, if it is there; a field given twice is an error. -/
def field? (members : List (Option String × Document)) (name : String) : Option (Option Document) :=
  match valuesOf name members with
  | [] => some none
  | [value] => some (some value)
  | _ => none

/-- The values of the named fields of an object. -/
def ofMembers? (members : List (Option String × Document)) :
    List String → Option (List (Option Document))
  | [] => some []
  | name :: names =>
    match field? members name, ofMembers? members names with
    | some value, some values => some (value :: values)
    | _, _ => none

/-- The fields of an array, in order; those past its end are absent. -/
def ofItems? : List Document → List String → Option (List (Option Document))
  | [], names => some (names.map fun _ => none)
  | _ :: _, [] => none
  | item :: items, _ :: names => (ofItems? items names).map (some item :: ·)

/-- The values of the fields of a record, in the order of their names. -/
def fields? (names : List String) : Document → Option (List (Option Document))
  | .object members =>
    if members.all fun (name, _) => name.isSome then ofMembers? members names else none
  | .array items => ofItems? items names
  | _ => none

/-- The value of an optional field: a default when absent, an error when it cannot be read. -/
def orDefault (default : α) (read : Document → Option α) : Option Document → Option α
  | none => some default
  | some document => read document

end Record

end Json

end Formwork
