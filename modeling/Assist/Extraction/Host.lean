import Assist.Extraction.Change
import Assist.Extraction.FreshName
import Assist.Settings.Basic
import Assist.Signature.Parser
import Assist.Signature.Printer

/-!
# The host of an extraction

An extraction asks its host for the edit of an action and leaves a few decisions to it: where a name
stands, which name to take, how a signature is read and written. A host answers in a monad of its
own, so that it can keep a record of what it was asked. `Host.standard` decides everything but the
edits the way the library does.
-/

namespace Assist.Extraction

open Assist.Text Assist.Signature

/-- A request for the edit of an action. -/
structure Request where
  fileName : String
  layout : Layout
  selection : Selection
  refactorName : String
  actionName : String
  preferences : Preferences
  deriving Repr

/-- What an extraction asks its host. -/
structure Host (m : Type → Type) where
  /-- The host's own edit of an action. -/
  edits : Request → m (Option EditInfo)
  /-- Where a name stands in a file after its changes; the flag asks for the last place. -/
  locateName : List FileChanges → String → String → Bool → m (Option Offset)
  /-- A name made from a base that is not among the given names. -/
  freshName : String → List String → m String
  /-- The signature of a function by its text. -/
  readSignature : String → m (Option FunctionDecl)
  /-- The text of a function by its signature. -/
  writeSignature : FunctionDecl → Layout → m String

/-- The host that has the given edits and leaves all else to the library. -/
def Host.standard {m : Type → Type} [Monad m] (edits : Request → m (Option EditInfo)) :
    Host m where
  edits := edits
  locateName edits fileName name preferLast :=
    pure (locateName? edits fileName name preferLast)
  freshName base names := pure (Extraction.freshName (names.contains ·) base)
  readSignature text := pure (FunctionDecl.ofText? text)
  writeSignature decl layout := pure (decl.print layout)

end Assist.Extraction
