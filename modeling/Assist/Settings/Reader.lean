import Assist.Json5.Value
import Assist.Wire.Settings

/-!
# Reading settings

There are two readers of a settings text, which is JSON5 in both cases. `Settings.ofText?` takes the
text for the settings themselves and refuses a setting that is given twice. `Settings.parse` takes
it for the settings file of an editor: the settings may stand in a section of their own, and of two
fields with one name the last counts.
-/

namespace Assist

namespace Settings

/-- A setting that is on or off. -/
def readFlag? : Json5.Value → Option Bool
  | .bool value => some value
  | _ => none

/-- The setting of a place: its name, or an object whose first field has the name as its key. What
the object holds is not looked at. -/
def readPlacement? : Json5.Value → Option Placement
  | .string name => Placement.ofName? name
  | .object ((some name, _) :: _) => Placement.ofName? name
  | _ => none

/-- A setting that is standard where it is not given. -/
def readOr? {α : Type} (read? : Json5.Value → Option α) (default : α) :
    Option Json5.Value → Option α
  | some value => read? value
  | none => some default

/-- The settings from the values that are given for them, in the order of `Settings.keys`. -/
def ofValues? : List (Option Json5.Value) → Option Settings
  | [offerValues, placement, cursorOnOwnLine, offerEmptyValue] => do
    return { offerValues := ← readOr? readFlag? standard.offerValues offerValues
             placement := ← readOr? readPlacement? standard.placement placement
             cursorOnOwnLine := ← readOr? readFlag? standard.cursorOnOwnLine cursorOnOwnLine
             offerEmptyValue := ← readOr? readFlag? standard.offerEmptyValue offerEmptyValue }
  | _ => none

/-- The value of a key that is given at most once. -/
def given? (fields : List (String × Json5.Value)) (key : String) : Option (Option Json5.Value) :=
  match fields.filter (·.1 == key) with
  | [] => some none
  | [(_, value)] => some (some value)
  | _ => none

/-- The settings that a value is. A field with another key does not matter, but it has to have a
value. An array gives the settings in order, and what it has beyond them is not looked at. -/
def ofJson5? : Json5.Value → Option Settings
  | .object fields => do
    let fields ← fields.mapM fun (key, value) => key.map (·, value)
    guard (fields.all fun (key, value) => keys.contains key || value.toJson?.isSome)
    ofValues? (← keys.mapM (given? fields))
  | .array items => ofValues? ((List.range keys.length).map (items[·]?))
  | _ => none

/-- The settings that a text is. -/
def ofText? (text : String) : Option Settings := (Json5.Value.parse? text).bind ofJson5?

/-- Why a settings file gives no settings. -/
inductive FileError where
  /-- The text is not JSON5. -/
  | badText
  /-- The section of the settings is not an object. -/
  | badSection
  /-- The text is not an object. -/
  | notAnObject
  /-- A setting has a value of the wrong kind. -/
  | badSetting
  deriving DecidableEq, Repr

/-- The key of the section of the settings in a settings file. -/
def sectionKey : String := "tsEssentialPlugins"

/-- An error in words. -/
def FileError.message : FileError → String
  | badText => "failed to parse settings JSON"
  | badSection => "`" ++ sectionKey ++ "` must be an object"
  | notAnObject => "settings must be a JSON object"
  | badSetting => "invalid plugin settings"

/-- The value of a settings file that holds the settings: its section, or all of it. -/
def section? : Json → Except FileError Json
  | .object fields =>
    match fields.lookup sectionKey with
    | some (.object inner) => .ok (.object inner)
    | some _ => .error .badSection
    | none => .ok (.object fields)
  | _ => .error .notAnObject

/-- The settings of a settings file. -/
def parse (text : String) : Except FileError Settings :=
  match (Json5.Value.parse? text).bind Json5.Value.toJson? with
  | none => .error .badText
  | some json => do
    match Wire.read? (← section? json) with
    | some settings => return settings
    | none => throw .badSetting

/-- Why a settings file could not be loaded. -/
inductive LoadError where
  /-- There is no such file, or it is not UTF-8. -/
  | unreadable
  | unusable (error : FileError)
  deriving DecidableEq, Repr

/-- An error in words, about the file at `path`. -/
def LoadError.message (path : String) : LoadError → String
  | unreadable => "failed to read settings: " ++ path
  | unusable error => "failed to load settings: " ++ path ++ ": " ++ error.message

/-- The settings of a settings file by its bytes; `none` if there is no such file. -/
def load (content : Option ByteArray) : Except LoadError Settings :=
  match content.bind String.fromUTF8? with
  | none => .error .unreadable
  | some text => (parse text).mapError LoadError.unusable

end Settings

end Assist
