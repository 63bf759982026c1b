import Assist.Json5.Token

/-!
# JSON5 values

A JSON5 text is a value as it is written: an object keeps all its fields in order, and a literal
without a value is there as `invalid`. `toJson?` is the JSON value that it stands for: of a field
that is given twice the last counts, and a number that is not finite is `null`.
-/

namespace Assist.Json5

/-- A value as it is written. The key of a field is `none` if it has no value. -/
inductive Value where
  | null
  | bool (value : Bool)
  | number (value : Number)
  | string (value : String)
  | array (items : List Value)
  | object (fields : List (Option String × Value))
  /-- A literal that is well formed and has no value. -/
  | invalid
  deriving Repr, Inhabited

namespace Value

/-- The value that a name stands for. -/
def ofName? : String → Option Value
  | "null" => some null
  | "true" => some (bool true)
  | "false" => some (bool false)
  | "Infinity" | "NaN" => some (number .notFinite)
  | _ => none

/-- The key that a token stands for: a string or a name. -/
def keyOf? : Token → Option (Option String)
  | .string value => some value
  | .name value _ => some value
  | _ => none

mutual

/-- Read a value, and return the tokens after it. -/
def read? : Nat → List Token → Option (Value × List Token)
  | 0, _ => none
  | fuel + 1, tokens =>
    match tokens with
    | .number (some value) :: rest => some (number value, rest)
    | .string (some value) :: rest => some (string value, rest)
    | .number none :: rest | .string none :: rest => some (invalid, rest)
    | .name (some name) true :: rest => (ofName? name).map (·, rest)
    | .punct '[' :: .punct ']' :: rest => some (array [], rest)
    | .punct '[' :: rest => (readItems? fuel rest).map fun (items, rest) => (array items, rest)
    | .punct '{' :: .punct '}' :: rest => some (object [], rest)
    | .punct '{' :: rest => (readFields? fuel rest).map fun (fields, rest) => (object fields, rest)
    | _ => none

/-- Read the items of an array that is not empty up to its end. -/
def readItems? : Nat → List Token → Option (List Value × List Token)
  | 0, _ => none
  | fuel + 1, tokens => do
    let (item, rest) ← read? fuel tokens
    match rest with
    | .punct ']' :: rest | .punct ',' :: .punct ']' :: rest => return ([item], rest)
    | .punct ',' :: rest =>
      let (items, rest) ← readItems? fuel rest
      return (item :: items, rest)
    | _ => none

/-- Read the fields of an object that is not empty up to its end. -/
def readFields? : Nat → List Token → Option (List (Option String × Value) × List Token)
  | 0, _ => none
  | fuel + 1, tokens => do
    match tokens with
    | token :: .punct ':' :: rest =>
      let key ← keyOf? token
      let (value, rest) ← read? fuel rest
      match rest with
      | .punct '}' :: rest | .punct ',' :: .punct '}' :: rest => return ([(key, value)], rest)
      | .punct ',' :: rest =>
        let (fields, rest) ← readFields? fuel rest
        return ((key, value) :: fields, rest)
      | _ => none
    | _ => none

end

/-- Read a text. A call that reads no token itself is followed by one that does, so twice the number
of tokens is fuel enough. -/
def parse? (text : String) : Option Value := do
  let tokens ← Token.scan? text
  match ← read? (2 * tokens.length + 2) tokens with
  | (value, []) => return value
  | _ => none

/-- Add a field to an object, in the place of one of the same name. -/
def setField (fields : List (String × Json)) (name : String) (value : Json) :
    List (String × Json) :=
  fields.filter (·.1 != name) ++ [(name, value)]

mutual

/-- The JSON value that a value stands for, unless some literal in it has no value. -/
def toJson? : Value → Option Json
  | null => some .null
  | bool value => some (.bool value)
  | number (.int value) => some (.int value)
  | number (.real value) => some (.real value)
  | number .notFinite => some .null
  | string value => some (.string value)
  | array items => (itemsToJson? items).map Json.array
  | object fields => (fieldsToJson? [] fields).map Json.object
  | invalid => none

/-- The JSON values of items. -/
def itemsToJson? : List Value → Option (List Json)
  | [] => some []
  | item :: items => do
    let item ← toJson? item
    return item :: (← itemsToJson? items)

/-- The JSON values of fields, added to those before. -/
def fieldsToJson? (before : List (String × Json)) :
    List (Option String × Value) → Option (List (String × Json))
  | [] => some before
  | (key, value) :: fields => do
    let key ← key
    let value ← toJson? value
    fieldsToJson? (setField before key value) fields

end

end Value

end Assist.Json5
