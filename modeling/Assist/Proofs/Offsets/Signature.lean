import Assist.Proofs.Offsets.Search

/-!
# Reading a signature by offset

The reader of signatures with every cut written out: after a mark of known length, behind a name,
inside and behind a bracket, before and behind an initial value. Every cut is at the offset of a
character, so the reader meets no fault on any text (`ofChars?_eq`).
-/

namespace Assist.Offsets

open Assist.Text Assist.Signature

/-! ## Marks and brackets -/

/-- Whether `cs` starts with `mark`, and what follows the mark without leading blanks. -/
def takeMark (mark : String) (cs : List Char) : Except Fault (Bool × List Char) :=
  if (stripStart? mark.toList cs).isSome then do
    return (true, trimStart (← textAfter (byteLen mark.toList) cs))
  else return (false, cs)

theorem takeMark_eq (mark : String) (cs : List Char) :
    takeMark mark cs = .ok (Signature.takeMark mark cs) := by
  rw [takeMark, Signature.takeMark]
  cases hstrip : stripStart? mark.toList cs with
  | none => rfl
  | some rest =>
    have hcs : cs = mark.toList ++ rest := stripStart?_eq_some_iff.mp hstrip
    have hafter := textAfter_append mark.toList rest
    rw [← hcs] at hafter
    rw [hafter]
    rfl

/-- The offset in `text` of the bracket that closes the one at `opening`. -/
def closingBracket? (text : List Char) (opening : Nat) : Except Fault (Option Nat) :=
  match cut? opening text with
  | some (_, tail) => do return (← closeOf? tail).map (opening + ·)
  | none => return none

theorem offsetOf_add (text : List Char) (place further : Nat) :
    offsetOf text (place + further) = offsetOf text place + offsetOf (text.drop place) further := by
  rw [offsetOf, List.take_add, byteLen_append, offsetOf, offsetOf]

theorem closingBracket?_eq (text : List Char) (place : Nat) :
    closingBracket? text (offsetOf text place) =
      .ok ((Signature.closeOf? (text.drop place)).map fun close =>
        offsetOf text (place + close)) := by
  have hcut : cut? (offsetOf text place) text = some (text.take place, text.drop place) := by
    rw [cut?_eq_some_iff, List.take_append_drop]
    exact ⟨rfl, rfl⟩
  simp only [closingBracket?, hcut, closeOf?_eq, ok_bind, pure_eq_ok, Option.map_map,
    offsetOf_add]
  rfl

/-- The inside of the bracket at the start of `cs`, and what follows the bracket that closes it,
without leading blanks. -/
def takeGroup? (cs : List Char) : OptionT (Except Fault) (List Char × List Char) := do
  let close ← OptionT.mk (closeOf? cs)
  let inside ← textBetween 1 close cs
  let rest ← textAfter (close + 1) cs
  return (inside, trimStart rest)

theorem takeGroup?_eq (cs : List Char) : takeGroup? cs = found (Signature.takeGroup? cs) := by
  rw [takeGroup?, Signature.takeGroup?, closeOf?_eq]
  cases h : Signature.closeOf? cs with
  | none => rfl
  | some close =>
    simp only [Option.map_some, mk_ok, found_some_bind, textBetween_brackets h,
      textAfter_brackets h, lift_ok_bind]
    rfl

/-- The pattern in brackets at the start of `cs`, and what follows it. -/
def takePattern? (cs : List Char) : OptionT (Except Fault) (Binding × List Char) := do
  let close ← OptionT.mk (closeOf? cs)
  let pattern ← textBefore (close + 1) cs
  let rest ← textAfter (close + 1) cs
  return (.pattern (String.ofList pattern), trimStart rest)

theorem takePattern?_eq (cs : List Char) :
    takePattern? cs = found ((Signature.closeOf? cs).map fun close =>
      (.pattern (String.ofList (cs.take (close + 1))), trimStart (cs.drop (close + 1)))) := by
  rw [takePattern?, closeOf?_eq]
  cases h : Signature.closeOf? cs with
  | none => rfl
  | some close =>
    simp only [Option.map_some, mk_ok, found_some_bind, textBefore_brackets h,
      textAfter_brackets h, lift_ok_bind]
    rfl

/-- What a parameter binds, and what follows it. -/
def takeBinding? (cs : List Char) : OptionT (Except Fault) (Binding × List Char) :=
  match cs with
  | '{' :: _ | '[' :: _ => takePattern? cs
  | _ => do
    let (name, rest) ← OptionT.mk (takeName? cs)
    return (.identifier name, rest)

theorem takeBinding?_eq (cs : List Char) : takeBinding? cs = found (Signature.takeBinding? cs) := by
  unfold takeBinding?
  split
  · rename_i rest
    rw [Signature.takeBinding?, takePattern?_eq]
    cases Signature.closeOf? ('{' :: rest) <;> rfl
  · rename_i rest
    rw [Signature.takeBinding?, takePattern?_eq]
    cases Signature.closeOf? ('[' :: rest) <;> rfl
  · rename_i hbrace hbracket
    rw [Signature.takeBinding?, takeName?_eq]
    · cases Signature.takeName? cs <;> rfl
    · exact hbrace
    · exact hbracket

/-! ## Parameters -/

/-- What stands before the initial value of a parameter, and the value. -/
def splitInitializer (cs : List Char) : Except Fault (List Char × Option String) := do
  match ← initializerAt? cs with
  | some place =>
    return (← textBefore place cs, some (String.ofList (trim (← textAfter (place + 1) cs))))
  | none => return (cs, none)

theorem splitInitializer_eq (cs : List Char) :
    splitInitializer cs = .ok (match Signature.initializerAt? cs with
      | some place => (cs.take place, some (String.ofList (trim (cs.drop (place + 1)))))
      | none => (cs, none)) := by
  rw [splitInitializer, initializerAt?_eq, ok_bind]
  cases h : Signature.initializerAt? cs with
  | none => rfl
  | some place =>
    obtain ⟨m, hm, rfl⟩ := Option.map_eq_some_iff.mp h
    have hchar := List.find?_some hm
    simp only [Bool.and_eq_true, beq_iff_eq] at hchar
    have hget := getElem?_of_mem_marks (List.mem_of_find?_eq_some hm)
    rw [hchar.1.1] at hget
    simp [textBefore_offsetOf, textAfter_offsetOf_succ hget (by decide)]

/-- Read a parameter: `...name?: type = initializer`. -/
def readParameter? (text : List Char) : OptionT (Except Fault) Parameter := do
  let (rest, cs) ← takeMark "..." (trim text)
  let (name, cs) ← takeBinding? cs
  let (optional, cs) ← takeMark "?" cs
  let (typed, initializer) ← splitInitializer cs
  let type? ← found (readTypeOf? typed)
  return { rest, name, optional, type?, initializer }

theorem readParameter?_eq (text : List Char) :
    readParameter? text = found (Signature.readParameter? text) := by
  simp only [readParameter?, Signature.readParameter?, takeMark_eq, takeBinding?_eq,
    splitInitializer_eq, lift_ok_bind, pure_eq_found, found_bind]
  rfl

/-! ## The return type -/

/-- Whether the brace at the offset `brace` opens an object type that is all there is after the
colon, but for a semicolon. -/
def isLoneObjectType (after : List Char) (brace : Nat) : Except Fault Bool := do
  if allBlank (← textBefore brace after) then
    match ← closingBracket? after brace with
    | some close =>
      let tail := trim (← textAfter (close + 1) after)
      return tail == [] || tail == [';']
    | none => return false
  else return false

theorem isLoneObjectType_eq (after : List Char) (place : Nat) :
    isLoneObjectType after (offsetOf after place) =
      .ok (Signature.isLoneObjectType after place) := by
  rw [isLoneObjectType, Signature.isLoneObjectType, textBefore_offsetOf, ok_bind,
    closingBracket?_eq, ok_bind]
  cases allBlank (after.take place) with
  | false => rfl
  | true =>
    cases h : Signature.closeOf? (after.drop place) with
    | none => rfl
    | some close =>
      obtain ⟨-, -, c, hget, hc⟩ := brackets_of_closeOf? h
      rw [List.getElem?_drop] at hget
      simp [textAfter_offsetOf_succ hget hc]

/-- Read what follows the colon after the parameters: the return type, and whether a body starts. -/
def readAnnotated (after : List Char) : Except Fault (Option TypeExpr × Bool) := do
  let bodiless := (typeOfText? (trimEnd (trimEndBy (· == ';') (trim after))), false)
  match ← lastTopLevel? '{' after with
  | some brace =>
    if ← isLoneObjectType after brace then return bodiless
    else return (typeOfText? (trim (← textBefore brace after)), true)
  | none => return bodiless

/-- Read what follows the parameters: the return type, and whether a body starts. -/
def readTail? (cs : List Char) : OptionT (Except Fault) (Option TypeExpr × Bool) :=
  match cs with
  | ':' :: after => readAnnotated after
  | _ => found (Signature.readTail? cs)

theorem readTail?_eq (cs : List Char) : readTail? cs = found (Signature.readTail? cs) := by
  unfold readTail?
  split
  · rename_i after
    rw [readAnnotated, Signature.readTail?, lastTopLevel?_eq (by decide), ok_bind]
    cases Signature.lastTopLevel? '{' after with
    | none => rfl
    | some place =>
      simp only [Option.map_some, isLoneObjectType_eq, ok_bind, textBefore_offsetOf]
      cases Signature.isLoneObjectType after place <;> rfl
  · rfl

/-! ## Declarations -/

/-- Read the type parameters at the start of `cs`, if there are any. -/
def takeTypeParameters? (cs : List Char) : OptionT (Except Fault) (Option String × List Char) :=
  match cs with
  | '<' :: _ => do
    let (inside, rest) ← takeGroup? cs
    return (some (String.ofList (trim inside)), rest)
  | _ => return (none, cs)

theorem takeTypeParameters?_eq (cs : List Char) :
    takeTypeParameters? cs = found (Signature.takeTypeParameters? cs) := by
  unfold takeTypeParameters?
  split
  · rename_i rest
    rw [Signature.takeTypeParameters?, takeGroup?_eq]
    cases Signature.takeGroup? ('<' :: rest) <;> rfl
  · rename_i hangle
    rw [Signature.takeTypeParameters?]
    · rfl
    · exact hangle

/-- Read the parameters at the start of `cs`. -/
def takeParameters? (cs : List Char) : OptionT (Except Fault) (List Parameter × List Char) := do
  guard (cs.head? == some '(')
  let (inside, rest) ← takeGroup? cs
  let pieces ← topLevelPieces ',' inside
  let parameters ← pieces.mapM readParameter?
  return (parameters, rest)

theorem mapM_readParameter?_eq (texts : List (List Char)) :
    texts.mapM readParameter? = found (texts.mapM Signature.readParameter?) := by
  induction texts with
  | nil => rfl
  | cons text texts ih =>
    rw [List.mapM_cons, List.mapM_cons, readParameter?_eq, ih]
    simp only [pure_eq_found, found_bind]
    rfl

theorem takeParameters?_eq (cs : List Char) :
    takeParameters? cs = found (Signature.takeParameters? cs) := by
  rw [takeParameters?, Signature.takeParameters?]
  simp only [guard_eq, takeGroup?_eq, topLevelPieces_eq (show ','.toNat < 128 by decide),
    lift_ok_bind, mapM_readParameter?_eq, pure_eq_found, found_bind]
  rfl

/-- The declaration whose header is `text`. -/
def ofChars? (text : List Char) : OptionT (Except Fault) FunctionDecl := do
  let (modifiers, cs) := takeKeywords (trim text)
  let cs ← found (afterKeyword? "function" cs)
  let (generator, cs) ← takeMark "*" cs
  let (name, cs) ← OptionT.mk (takeName? cs)
  let (typeParameters, cs) ← takeTypeParameters? cs
  let (parameters, cs) ← takeParameters? cs
  let (returnType, hasBody) ← readTail? cs
  return { modifiers, generator, name, typeParameters, parameters, returnType,
           body := if hasBody then some [] else none }

/-- Reading a signature meets no fault, whatever the text. -/
theorem ofChars?_eq (text : List Char) : ofChars? text = found (FunctionDecl.ofChars? text) := by
  simp only [ofChars?, FunctionDecl.ofChars?, takeMark_eq, takeName?_eq, mk_ok,
    takeTypeParameters?_eq, takeParameters?_eq, readTail?_eq, lift_ok_bind, pure_eq_found,
    found_bind]
  rfl

end Assist.Offsets
