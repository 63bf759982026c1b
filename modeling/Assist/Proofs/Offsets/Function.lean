import Assist.Extraction.Arrow
import Assist.Extraction.Component
import Assist.Proofs.Offsets.Signature
import Assist.Proofs.Text.Search

/-!
# Rewriting a function by offset

The text of a function is turned into an arrow function by finding offsets in it, replacing one
character and inserting another text; the arguments of a call are what stands between two offsets.
A text that is searched for is found at the offset of a character, so no text leads to a fault
(`declaredName?_eq`, `toArrow?_eq`, `argumentsOf?_eq`).
-/

namespace Assist.Offsets

open Assist.Text Assist.Signature Assist.Extraction

/-! ## Searching -/

/-- The offset of the first occurrence of `needle`. -/
def findText? (needle cs : List Char) : Option Nat :=
  (splitAtFirst? needle cs).map fun (before, _) => byteLen before

/-- The offset of the first character that satisfies `p`. -/
def findChar? (p : Char → Bool) (cs : List Char) : Option Nat :=
  (splitAtChar? p cs).map fun (before, _, _) => byteLen before

/-- What follows a text that was found. -/
theorem textAfter_found {needle cs before rest : List Char}
    (h : splitAtFirst? needle cs = some (before, rest)) :
    textAfter (byteLen before + byteLen needle) cs = .ok (rest.drop needle.length) := by
  obtain ⟨rfl, after, rfl⟩ := splitAtFirst?_eq_append h
  have hafter := textAfter_append (before ++ needle) after
  rw [byteLen_append, List.append_assoc] at hafter
  rw [hafter, List.drop_left]

theorem textBefore_found {needle cs before rest : List Char}
    (h : splitAtFirst? needle cs = some (before, rest)) :
    textBefore (byteLen before) cs = .ok before := by
  obtain ⟨rfl, -⟩ := splitAtFirst?_eq_append h
  exact textBefore_append before rest

/-- The bracket that closes the one after a first part of a text. -/
theorem closingBracket?_append (front tail : List Char) :
    closingBracket? (front ++ tail) (byteLen front) =
      .ok ((Signature.closeOf? tail).map fun close => byteLen front + offsetOf tail close) := by
  simp only [closingBracket?, cut?_append, closeOf?_eq, ok_bind, pure_eq_ok, Option.map_map]
  rfl

/-! ## Arrow functions -/

/-- The name of the first function that `text` declares. -/
def declaredName? (text : List Char) : OptionT (Except Fault) (List Char) := do
  let keyword ← found (findText? functionKeyword text)
  let declared ← textAfter (keyword + byteLen functionKeyword) text
  let stop ← found (findChar? (fun c => c == '(' || c == '<') declared)
  let name := trim (← textBefore stop declared)
  guard (!name.isEmpty)
  return name

theorem declaredName?_eq (text : List Char) :
    declaredName? text = found (Extraction.declaredName? text) := by
  rw [declaredName?, Extraction.declaredName?, findText?]
  cases hkeyword : splitAtFirst? functionKeyword text with
  | none => rfl
  | some parts =>
    obtain ⟨before, rest⟩ := parts
    simp only [Option.map_some, found_some_bind, textAfter_found hkeyword, lift_ok_bind,
      Option.bind_eq_bind, Option.bind_some, findChar?]
    cases hstop : splitAtChar? (fun c => c == '(' || c == '<')
        (rest.drop functionKeyword.length) with
    | none => rfl
    | some parts =>
      obtain ⟨name, c, after⟩ := parts
      have hbefore := textBefore_append name (c :: after)
      rw [← (splitAtChar?_eq_some_iff.mp hstop).1] at hbefore
      simp only [Option.map_some, found_some_bind, hbefore, lift_ok_bind, Option.bind_some,
        guard_eq, pure_eq_found, found_bind]
      rfl

/-- The first function of `text` as a constant that is an arrow function. -/
def toArrow? (text : List Char) : OptionT (Except Fault) (List Char) := do
  let keyword ← found (findText? functionKeyword text)
  let before ← textBefore keyword text
  let declared ← textAfter (keyword + byteLen functionKeyword) text
  let arrow := before ++ "const ".toList ++ declared
  let opening ← found (findText? ['('] arrow)
  let arrow ← replaceText opening (opening + 1) " = (".toList arrow
  let close ← OptionT.mk (closingBracket? arrow (opening + byteLen " = ".toList))
  let after ← textAfter close arrow
  let brace ← found ((findText? ['{', '\n'] after).or (findText? ['{'] after))
  insertText (close + brace) "=> ".toList arrow

theorem replaceText_append (xs ys zs new : List Char) :
    replaceText (byteLen xs) (byteLen xs + byteLen ys) new (xs ++ ys ++ zs) =
      .ok (xs ++ new ++ zs) := by
  have hbefore := textBefore_append xs (ys ++ zs)
  have hafter := textAfter_append (xs ++ ys) zs
  rw [← List.append_assoc] at hbefore
  rw [byteLen_append] at hafter
  rw [replaceText, hbefore, ok_bind, hafter]
  rfl

theorem insertText_append (xs ys new : List Char) :
    insertText (byteLen xs) new (xs ++ ys) = .ok (xs ++ new ++ ys) := by
  rw [insertText, textBefore_append, ok_bind, textAfter_append]
  rfl

theorem splitAtBody?_eq_append {cs gap body : List Char}
    (h : splitAtBody? cs = some (gap, body)) : cs = gap ++ body := by
  rw [splitAtBody?, Option.or_eq_some_iff] at h
  obtain hline | ⟨-, hbrace⟩ := h
  · exact (splitAtFirst?_eq_append hline).1
  · exact (splitAtFirst?_eq_append hbrace).1

/-- The first parenthesis with a text before it. -/
theorem replaceText_paren {arrow head tail : List Char}
    (h : splitAtFirst? ['('] arrow = some (head, tail)) :
    replaceText (byteLen head) (byteLen head + 1) " = (".toList arrow =
      .ok (head ++ " = ".toList ++ tail) := by
  obtain ⟨rfl, rest, rfl⟩ := splitAtFirst?_eq_append h
  have hreplace := replaceText_append head ['('] rest " = (".toList
  have hparen : byteLen ['('] = 1 := rfl
  rw [hparen, List.append_assoc] at hreplace
  rw [hreplace, List.append_assoc, List.append_assoc]
  rfl

/-- The offset of the body is the offset of the brace that opens it. -/
theorem findText?_or_findText? (cs : List Char) :
    (findText? ['{', '\n'] cs).or (findText? ['{'] cs) =
      (splitAtBody? cs).map fun (gap, _) => byteLen gap := by
  rw [findText?, findText?, splitAtBody?, Option.map_or]

theorem toArrow?_eq (text : List Char) : toArrow? text = found (Extraction.toArrow? text) := by
  rw [toArrow?, Extraction.toArrow?, findText?]
  cases hkeyword : splitAtFirst? functionKeyword text with
  | none => rfl
  | some parts =>
    obtain ⟨before, rest⟩ := parts
    simp only [Option.map_some, found_some_bind, textBefore_found hkeyword,
      textAfter_found hkeyword, lift_ok_bind, Option.bind_eq_bind, Option.bind_some]
    generalize before ++ "const ".toList ++ rest.drop functionKeyword.length = arrow
    rw [findText?]
    cases hopening : splitAtFirst? ['('] arrow with
    | none => rfl
    | some parts =>
      obtain ⟨head, tail⟩ := parts
      simp only [Option.map_some, found_some_bind, replaceText_paren hopening, lift_ok_bind,
        ← byteLen_append, closingBracket?_append, Option.bind_some]
      cases Signature.closeOf? tail with
      | none => rfl
      | some close =>
        -- the text up to the bracket that closes, and what follows
        have hsplit : head ++ " = ".toList ++ tail =
            head ++ " = ".toList ++ tail.take close ++ tail.drop close := by
          rw [List.append_assoc _ (tail.take close), List.take_append_drop]
        rw [hsplit, Option.map_some, mk_ok, found_some_bind, Option.bind_some, offsetOf,
          ← byteLen_append]
        generalize head ++ " = ".toList ++ tail.take close = front
        rw [textAfter_append, lift_ok_bind, findText?_or_findText?]
        cases hbody : splitAtBody? (tail.drop close) with
        | none => rfl
        | some parts =>
          obtain ⟨gap, body⟩ := parts
          have hinsert := insertText_append (front ++ gap) body "=> ".toList
          rw [byteLen_append, List.append_assoc front, ← splitAtBody?_eq_append hbody] at hinsert
          simp only [Option.map_some, found_some_bind, hinsert, Option.bind_some]
          rfl

/-! ## Calls -/

/-- The arguments of the call that a text is. -/
def argumentsOf? (text : String) : OptionT (Except Fault) (List String) := do
  let call := bareCall text.toList
  let opening ← found (findText? ['('] call)
  let close ← OptionT.mk (closingBracket? call opening)
  guard (allBlank (← textAfter (close + 1) call))
  let inside ← textBetween (opening + 1) close call
  let pieces ← topLevelPieces ',' inside
  return pieces.map String.ofList

theorem textAfter_add (front tail : List Char) (offset : Nat) :
    textAfter (byteLen front + offset) (front ++ tail) = textAfter offset tail := by
  rw [textAfter, textAfter, cut?_add]
  cases cut? offset tail <;> rfl

theorem textBetween_add (front tail : List Char) (start stop : Nat) :
    textBetween (byteLen front + start) (byteLen front + stop) (front ++ tail) =
      textBetween start stop tail := by
  have hslice : slice? (byteLen front + start) (byteLen front + stop) (front ++ tail) =
      slice? start stop tail := by
    rw [slice?, slice?, cut?_add, Nat.add_sub_add_left]
    simp only [Nat.add_le_add_iff_left]
    cases cut? start tail <;> rfl
  rw [textBetween, textBetween, hslice]

theorem argumentsOf?_eq (text : String) :
    argumentsOf? text = found (Extraction.argumentsOf? text) := by
  rw [argumentsOf?, Extraction.argumentsOf?, findText?]
  generalize bareCall text.toList = call
  cases hopening : splitAtFirst? ['('] call with
  | none => rfl
  | some parts =>
    obtain ⟨before, tail⟩ := parts
    obtain ⟨rfl, -⟩ := splitAtFirst?_eq_append hopening
    simp only [Option.map_some, found_some_bind, closingBracket?_append, Option.bind_eq_bind,
      Option.bind_some]
    cases hclose : Signature.closeOf? tail with
    | none => rfl
    | some close =>
      have hafter := textAfter_add before tail (offsetOf tail close + 1)
      have hinside := textBetween_add before tail 1 (offsetOf tail close)
      rw [← Nat.add_assoc, textAfter_brackets hclose] at hafter
      rw [textBetween_brackets hclose] at hinside
      simp only [Option.map_some, mk_ok, found_some_bind, hafter, hinside, lift_ok_bind,
        topLevelPieces_eq (by decide : ','.toNat < 128), Option.bind_some, guard_eq, pure_eq_found,
        found_bind]
      rfl

end Assist.Offsets
