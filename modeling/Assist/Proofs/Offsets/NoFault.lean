import Assist.Proofs.Completion.OnePass
import Assist.Proofs.Extraction.Run
import Assist.Proofs.Offsets.Completion
import Assist.Proofs.Offsets.Edit
import Mathlib.Algebra.Group.Nat.Defs

/-!
# No fault on a tree that fits its file

The modules before write everything the library is asked for in operations that can fail: an index
may be out of range, a cut inside a character, a sum too large. `no_fault_of_builtOver` brings them
together. On a tree that is built bottom-up over boundaries of a text, none of the operations fails,
and the answers are those of the library, for every answer of the host, request, selection, list of
entries and oracle. The offsets of a request and of the host's changes need not fit the file at all.
-/

namespace Assist.Offsets

open Assist.Text Assist.Syntax Assist.Types Assist.Extraction

/-- Whatever is asked about a tree that is built bottom-up over boundaries of its text, no index is
out of range, no text is cut inside a character, and no sum or difference of offsets overflows. -/
theorem no_fault_of_builtOver {source : String} {tree : Tree} (hbuilt : tree.BuiltOver source)
    (hshort : byteLen source.toList < 2 ^ 32) :
    (∀ (m : Type → Type) [Monad m] [LawfulMonad m] (edits : Request → m (Option EditInfo))
      (request : Request),
      Faultless (requestedEdit edits tree request) ∧
        requestedEdit edits tree request =
          Extraction.requestedEdit (Host.standard edits) tree request) ∧
    (∀ (refactor : RefactorInfo) (selection : Selection),
      withVariants refactor tree selection = .ok (refactor.withVariants tree selection)) ∧
    (∀ (oracle : Oracle) (preferences : Preferences) (settings : Settings) (position : Offset)
      (entries : List Completion.Entry),
      ∃ out, extend ⟨tree, oracle, preferences, settings, position⟩ entries = .ok out ∧
        Completion.Request.extend ⟨tree, oracle, preferences, settings, position⟩ entries =
          .ok out) := by
  have haligned : tree.Aligned := hbuilt.aligned (Nat.le_of_lt_succ hshort)
  refine ⟨fun m _ _ edits request => ?_, fun refactor selection => ?_, ?_⟩
  · rw [requestedEdit_eq edits request haligned]
    exact ⟨faultless_requestedEdit _ request haligned, rfl⟩
  · exact withVariants_eq refactor tree selection
  · intro oracle preferences settings position entries
    exact extend_ok haligned entries

/-! ## A sample -/

/-- A file with a character of two bytes at offset 8. -/
def naiveText : String := "const naïve = \x7b\x7d;\n"

/-- An object literal in a statement. -/
def naiveTree : Tree :=
  (((Tree.empty naiveText).add .objectLiteralExpression 14 17 []).add .variableStatement 0 18
    [⟨0⟩]).addFile [⟨1⟩]

/-- A request whose selection starts inside the character and ends past the file. -/
def naiveRequest : Request :=
  ⟨"naive.ts", Signature.Layout.standard, .range ⟨9, 30⟩, "Extract Symbol",
    "function_scope_0_local_arrow", Preferences.standard⟩

/-- A host that keeps a record and has the same changes for all actions, one inside the character
and one past the file. -/
def naiveEdits (request : Request) : StateM (List String) (Option EditInfo) := do
  modify (request.actionName :: ·)
  return some ⟨[⟨"naive.ts",
    [⟨⟨9, 0⟩, "ï(\"ï\\"⟩, ⟨⟨100, 0⟩, "function ï(ï) \x7b\nï\n\x7d"⟩]⟩], none, none⟩

/-- A completion between the braces. -/
def naiveCompletion : Completion.Request :=
  ⟨naiveTree, Completion.optionsTable.oracle, ⟨true, .auto⟩, Settings.standard, 16⟩

theorem no_fault_naive :
    naiveTree.BuiltOver naiveText ∧ byteLen naiveText.toList < 2 ^ 32 ∧
      Yields (requestedEdit naiveEdits naiveTree naiveRequest) []
        (some ⟨[⟨"naive.ts", [⟨⟨9, 0⟩, "const ï = (ï) => \x7b\nï\n\x7d\n"⟩,
          ⟨⟨9, 0⟩, "ï(\"ï\\"⟩]⟩], none, some 35⟩) ["constant_scope_0", "function_scope_0"] ∧
      withVariants ⟨"Extract Symbol", "", []⟩ naiveTree (.range ⟨9, 30⟩) =
        .ok ⟨"Extract Symbol", "", []⟩ ∧
      extend naiveCompletion [Completion.runMethod, Completion.runEntry] =
        .ok (some [Completion.runEntry, { Completion.runMethod with sortText := "11" }]) := by
  have hbuilt : naiveTree.BuiltOver naiveText := by
    refine .addFile (.add (.add .empty ?_ ?_ ?_) ?_ ?_ ?_) ?_ <;> decide +kernel
  have hshort : byteLen naiveText.toList < 2 ^ 32 := by decide +kernel
  obtain ⟨hedit, hoffers, hcompletion⟩ := no_fault_of_builtOver hbuilt hshort
  refine ⟨hbuilt, hshort, ?_, hoffers _ _, ?_⟩
  · rw [(hedit _ naiveEdits naiveRequest).2]
    decide +kernel
  · obtain ⟨out, hextend, hout⟩ := hcompletion Completion.optionsTable.oracle ⟨true, .auto⟩
      Settings.standard 16 [Completion.runMethod, Completion.runEntry]
    rw [naiveCompletion, hextend, ← hout]
    decide +kernel

end Assist.Offsets
