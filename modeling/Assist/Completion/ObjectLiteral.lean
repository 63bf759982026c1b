import Assist.Completion.Entry
import Assist.Completion.Snippet
import Assist.Syntax.Locate

/-!
# Completing object literals

Where the name of a property is completed in an object literal whose type is known, the entry of
each property gets a second one that inserts a value too. A property that is a function gets none;
instead the snippet that the host made for the method is moved next to the plain entry and takes its
sort key. The list is never sorted anew: entries are put in beside the ones they belong to.
-/

namespace Assist.Completion

open Assist.Text Assist.Syntax Assist.Types

/-- What a completion is made from. -/
structure Request where
  tree : Tree
  oracle : Oracle
  preferences : Preferences
  settings : Settings
  /-- The offset of the cursor. -/
  position : Offset

/-- The object literal in which the name of a property is being completed. It is found from the
character before the cursor, through the name itself and a property without a value. A colon right
after the cursor means that the property has its value already. -/
def Request.literal? (r : Request) : Option NodeId := do
  guard (r.position ≠ 0)
  let node ← r.tree.innermost? (r.position - 1)
  let node ← if (r.tree.kind node).isIdentifier then r.tree.parent? node else some node
  let node ← if r.tree.kind node == .shorthandPropertyAssignment then r.tree.parent? node
    else some node
  guard (r.tree.kind node == .objectLiteralExpression)
  guard (byteAt? r.tree.source r.position.toNat != some 0x3A)
  return node

/-- Put `entry` beside the entry at `index`, or in its place. -/
def place (placement : Placement) (entries : List Entry) (index : Nat) (entry : Entry) :
    List Entry :=
  match placement with
  | .above => entries.insertIdx index entry
  | .below => entries.insertIdx (index + 1) entry
  | .remove => entries.set index entry

/-- Where the plain entry of a name is. -/
def plainIndex? (entries : List Entry) (name : String) : Option Nat :=
  entries.findIdx? fun entry => entry.name == name && !entry.isMethodSnippet

/-- Where the entry of a name that inserts a method is. -/
def methodIndex? (entries : List Entry) (name : String) : Option Nat :=
  entries.findIdx? fun entry => entry.name == name && entry.isMethodSnippet

/-- Move the entry that inserts a method next to the plain entry at `index`, under its sort key. -/
def placeMethod (placement : Placement) (entries : List Entry) (index : Nat) : List Entry :=
  match entries[index]? with
  | none => entries
  | some plain =>
    match methodIndex? entries plain.name with
    | none => entries
    | some methodIndex =>
      match entries[methodIndex]? with
      | none => entries
      | some method =>
        let index := if methodIndex < index then index - 1 else index
        place placement (entries.eraseIdx methodIndex) index
          { method with sortText := plain.sortText }

/-- An entry that inserts a value after the name. -/
def Entry.withValue (entry : Entry) (snippet : Snippet) : Entry :=
  { entry with
    insertText := some (entry.name ++ snippet.insert)
    isSnippet := true
    labelDetails := some ⟨some snippet.preview, none⟩ }

/-- Put the entry with a value beside the plain entry at `index`. -/
def placeValue (placement : Placement) (entries : List Entry) (index : Nat) (snippet : Snippet) :
    List Entry :=
  match entries[index]? with
  | none => entries
  | some entry => place placement entries index (entry.withValue snippet)

/-- The list once the entries of one property are in it. -/
def Request.complete (r : Request) (node : NodeId) (entries : List Entry) (property : Property) :
    Except Fault (List Entry) :=
  match plainIndex? entries property.name, r.oracle.propertyTypeAt property node with
  | some index, some type =>
    if r.oracle.isFunction type then
      .ok (if r.preferences.methodSnippets then placeMethod r.settings.placement entries index
        else entries)
    else if r.settings.offerValues then do
      match ← snippetFor? r.tree r.preferences r.settings (r.oracle.shape type) with
      | some snippet => return placeValue r.settings.placement entries index snippet
      | none => return entries
    else .ok entries
  | _, _ => .ok entries

/-- Whether there is anything that a request could add. -/
def Request.isActive (r : Request) : Bool := r.preferences.methodSnippets || r.settings.offerValues

/-- The list with the entries of every property, or `none` where the list of the host stays: there
is nothing to add, or the cursor is not at the name of a property in an object literal whose type is
known. -/
def Request.extend (r : Request) (entries : List Entry) : Except Fault (Option (List Entry)) :=
  if entries.isEmpty || !r.isActive then .ok none
  else
    match r.literal? with
    | none => .ok none
    | some node =>
      match r.oracle.expectedType node with
      | none => .ok none
      | some expected => do
        return some (← (r.oracle.completableProperties expected).foldlM (r.complete node) entries)

end Assist.Completion
