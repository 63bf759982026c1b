import Assist.Settings.Basic
import Assist.Signature.Printer
import Assist.Wire.Basic

/-!
# Settings and preferences on the wire

Every setting has a value where it is not given. The place above an entry has a second name,
`before`, under which it is read.
-/

namespace Assist

namespace Placement

/-- The name of a placement. -/
def name : Placement → String
  | above => "above"
  | below => "below"
  | remove => "remove"

/-- The placement of a given name. -/
def ofName? : String → Option Placement
  | "above" | "before" => some above
  | "below" => some below
  | "remove" => some remove
  | _ => none

end Placement

namespace QuoteStyle

/-- The name of a style. -/
def name : QuoteStyle → String
  | auto => "auto"
  | double => "double"
  | single => "single"

/-- The style of a given name. -/
def ofName? : String → Option QuoteStyle
  | "auto" => some auto
  | "double" => some double
  | "single" => some single
  | _ => none

end QuoteStyle

/-- The names of the settings in a settings file. -/
def Settings.keys : List String :=
  ["objectLiteralCompletions.moreVariants", "objectLiteralCompletions.keepOriginal",
    "objectLiteralCompletions.insertNewLine", "objectLiteralCompletions.fallbackVariant"]

/-- The names of the preferences. -/
def Preferences.keys : List String :=
  ["includeCompletionsWithObjectLiteralMethodSnippets", "quotePreference"]

namespace Wire

open Assist.Signature

instance : Wire Placement where
  write placement := .string placement.name
  read? := readChoice? Placement.ofName?

instance : Wire QuoteStyle where
  write style := .string style.name
  read? := readChoice? QuoteStyle.ofName?

instance : Wire Settings where
  write settings := .object (Settings.keys.zip
    [write settings.offerValues, write settings.placement, write settings.cursorOnOwnLine,
      write settings.offerEmptyValue])
  read? json := do
    match ← slots? Settings.keys json with
    | [offerValues, placement, cursorOnOwnLine, offerEmptyValue] =>
      return { offerValues := ← offerValues.withDefault Settings.standard.offerValues
               placement := ← placement.withDefault Settings.standard.placement
               cursorOnOwnLine := ← cursorOnOwnLine.withDefault Settings.standard.cursorOnOwnLine
               offerEmptyValue := ← offerEmptyValue.withDefault Settings.standard.offerEmptyValue }
    | _ => none

instance : Wire Preferences where
  write preferences := .object (Preferences.keys.zip
    [write preferences.methodSnippets, write preferences.quotes])
  read? json := do
    match ← slots? Preferences.keys json with
    | [methodSnippets, quotes] =>
      return { methodSnippets := ← methodSnippets.withDefault Preferences.standard.methodSnippets
               quotes := ← quotes.withDefault Preferences.standard.quotes }
    | _ => none

instance : Wire Layout where
  write layout := .object
    [("indentSize", write layout.indentSize), ("convertTabsToSpaces", write layout.useSpaces)]
  read? json := do
    match ← slots? ["indentSize", "convertTabsToSpaces"] json with
    | [indentSize, useSpaces] =>
      return { indentSize := ← indentSize.withDefault Layout.standard.indentSize
               useSpaces := ← useSpaces.withDefault Layout.standard.useSpaces }
    | _ => none

end Wire

end Assist
