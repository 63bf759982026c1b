import Assist.Fault
import Assist.Text.Decimal
import Assist.Text.Span

/-!
# Why an edit was refused

A variant is made from an edit of the host only if that edit has the form of an extraction. A
`Refusal` says what was missing, and `message` puts it into words. An editor that gets one falls
back on the edit of the host.
-/

namespace Assist.Extraction

open Assist.Text

/-- What could not be understood in the text of an extracted function. -/
inductive Malformation where
  | callSite
  | signature
  | parameter
  | componentBody
  | functionHeader
  | parameterList
  deriving DecidableEq, Repr

/-- A malformation in words. -/
def Malformation.reason : Malformation → String
  | callSite => "call site is not a call expression"
  | signature => "function signature does not parse"
  | parameter => "parameter is not a plain identifier"
  | componentBody => "printed component has no empty body"
  | functionHeader => "no `function <name>(` header"
  | parameterList => "unbalanced parameter list"

/-- Why an edit was refused. -/
inductive Refusal where
  /-- The host has no edit for the action, or one without files. -/
  | missingOriginEdit (actionName : String)
  /-- An extraction makes at least two changes. -/
  | missingTextChanges (found : Nat)
  /-- The function would be inserted into the text that the call replaces. -/
  | overlappingChanges (insertion : Offset) (callSite : Span)
  /-- A change that is to be moved replaces text. -/
  | relocatedReplacement (span : Span)
  /-- A span ends past the largest offset. -/
  | invalidSpan (span : Span)
  | malformedFunctionText (cause : Malformation)
  deriving DecidableEq, Repr

namespace Refusal

/-- The name of the kind of a refusal. -/
def name : Refusal → String
  | missingOriginEdit _ => "MissingOriginEdit"
  | missingTextChanges _ => "MissingTextChanges"
  | overlappingChanges _ _ => "OverlappingChanges"
  | relocatedReplacement _ => "RelocatedReplacement"
  | invalidSpan _ => "InvalidSpan"
  | malformedFunctionText _ => "MalformedFunctionText"

/-- A refusal in words. -/
def message : Refusal → String
  | missingOriginEdit actionName =>
    "host returned no edit for refactor action '" ++ actionName ++ "'"
  | missingTextChanges found =>
    "extraction edit needs at least 2 text changes, found " ++ decimal found
  | overlappingChanges insertion callSite =>
    "insertion at " ++ decimal insertion.toNat ++ " falls inside the call-site change "
      ++ decimal callSite.start.toNat ++ ".." ++ decimal callSite.stop.toNat
  | relocatedReplacement span =>
    "cannot relocate a change that replaces " ++ decimal span.length.toNat ++ " characters at "
      ++ decimal span.start.toNat
  | invalidSpan span =>
    "span of " ++ decimal span.length.toNat ++ " characters at " ++ decimal span.start.toNat
      ++ " ends past the largest offset"
  | malformedFunctionText cause => "malformed extracted function text: " ++ cause.reason

end Refusal

/-- Why there is no edit of a variant: the edit of the host was refused, or the tree does not fit
its file. -/
inductive Failure where
  | refused (refusal : Refusal)
  | fault (fault : Fault)
  deriving DecidableEq, Repr

end Assist.Extraction
