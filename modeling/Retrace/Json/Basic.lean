/-!
# JSON values

* `Json` : a JSON value; whole numbers are kept apart from numbers with a fraction or an exponent;
* `Json.variant?` : a choice, written as its name or as an object with the name as its only key;
* `Json.slots?` : the parts of a structure, written as an object or as an array;
* `Codec` : types with a JSON form.
-/

namespace Retrace

inductive Json where
  | null
  | bool (value : Bool)
  /-- A number written without fraction and exponent. -/
  | int (value : Int)
  /-- Any other number, as it was written. -/
  | decimal (literal : String)
  | str (value : String)
  | arr (items : List Json)
  | obj (fields : List (String × Json))
  deriving Repr, Inhabited

namespace Json

def isNull : Json → Bool
  | null => true
  | _ => false

/-- Name and payload of a choice. A bare name has no payload. -/
def variant? : Json → Option (String × Json)
  | str name => some (name, null)
  | obj [(name, payload)] => some (name, payload)
  | _ => none

/-- The only member with a name. A name given twice is refused, as one not given. -/
def member? (fields : List (String × Json)) (name : String) : Option Json :=
  match fields.filter (·.1 = name) with
  | [(_, value)] => some value
  | _ => none

/-- The members with the given names, in that order; others are ignored. -/
def members? (fields : List (String × Json)) : List String → Option (List Json)
  | [] => some []
  | name :: rest => do
    let value ← member? fields name
    let values ← members? fields rest
    return value :: values

/-- The parts of a structure with the given names: the members of an object, or an array of
exactly as many items. -/
def slots? (names : List String) : Json → Option (List Json)
  | obj fields => members? fields names
  | arr items => if items.length = names.length then some items else none
  | _ => none

end Json

/-- A type with a JSON form. `decode` may accept several forms of one value. -/
class Codec (α : Type) where
  encode : α → Json
  decode : Json → Option α

export Codec (encode decode)

end Retrace
