import Assist.Signature.Basic
import Assist.Signature.Scan
import Assist.Text.Search

/-!
# Reading a signature

`FunctionDecl.ofText?` reads the header of a function declaration. What follows the brace that opens
the body is not read, and types, initial values and patterns are taken as they are written. A text
that is not such a header is no declaration.
-/

namespace Assist.Signature

open Assist.Text

/-- The characters of names: ASCII letters and digits, `_`, `$`, and everything beyond ASCII. -/
def isNameChar (c : Char) : Bool := c.isAlphanum || c == '_' || c == '$' || 128 ≤ c.toNat

/-- What follows the word `keyword` at the start of `cs`, without leading blanks. -/
def afterKeyword? (keyword : String) (cs : List Char) : Option (List Char) :=
  match stripStart? keyword.toList cs with
  | none => none
  | some rest => if rest.head?.any isNameChar then none else some (trimStart rest)

/-- The keywords that can stand before `function`. -/
def leadingKeywords : List String := ["export", "default", "declare", "async"]

/-- A keyword at the start of `cs` and what follows it. -/
def takeKeyword? (cs : List Char) : Option (String × List Char) :=
  leadingKeywords.findSome? fun keyword => (afterKeyword? keyword cs).map (keyword, ·)

theorem length_dropWhile_le (p : Char → Bool) (cs : List Char) :
    (cs.dropWhile p).length ≤ cs.length :=
  (List.dropWhile_sublist p).length_le

/-- What follows a keyword is shorter by the keyword at least. -/
theorem length_of_afterKeyword? {keyword : String} {cs rest : List Char}
    (h : afterKeyword? keyword cs = some rest) :
    rest.length + keyword.toList.length ≤ cs.length := by
  simp only [afterKeyword?] at h
  split at h
  · simp at h
  · rename_i tail htail
    split at h
    · simp at h
    · have hcs := stripStart?_eq_some_iff.1 htail
      have hle := length_dropWhile_le isBlank tail
      rw [hcs, List.length_append, ← Option.some.inj h, trimStart]
      omega

/-- What follows one of the leading keywords is shorter. -/
theorem length_lt_of_takeKeyword? {cs rest : List Char} {keyword : String}
    (h : takeKeyword? cs = some (keyword, rest)) : rest.length < cs.length := by
  obtain ⟨k, hk, hsome⟩ := List.exists_of_findSome?_eq_some h
  obtain ⟨tail, htail, heq⟩ := Option.map_eq_some_iff.1 hsome
  simp only [Prod.mk.injEq] at heq
  obtain ⟨rfl, rfl⟩ := heq
  have hlen := length_of_afterKeyword? htail
  have hpos : 0 < k.toList.length := by
    simp only [leadingKeywords, List.mem_cons, List.not_mem_nil, or_false] at hk
    rcases hk with rfl | rfl | rfl | rfl <;> decide
  omega

/-- The keywords at the start of `cs` and what follows them. -/
def takeKeywords (cs : List Char) : List String × List Char :=
  match h : takeKeyword? cs with
  | none => ([], cs)
  | some (keyword, rest) =>
    have : rest.length < cs.length := length_lt_of_takeKeyword? h
    let (keywords, after) := takeKeywords rest
    (keyword :: keywords, after)
termination_by cs.length

/-- The name at the start of `cs` and what follows it without leading blanks, if there is a name. -/
def takeName? (cs : List Char) : Option (String × List Char) :=
  match cs.takeWhile isNameChar with
  | [] => none
  | name => some (String.ofList name, trimStart (cs.dropWhile isNameChar))

/-- The inside of the bracket at the start of `cs`, and what follows the bracket that closes it,
without leading blanks. -/
def takeGroup? (cs : List Char) : Option (List Char × List Char) := do
  let close ← closeOf? cs
  return ((cs.take close).drop 1, trimStart (cs.drop (close + 1)))

/-- Whether `cs` starts with `mark`, and what follows the mark without leading blanks; all of `cs`
if it does not. -/
def takeMark (mark : String) (cs : List Char) : Bool × List Char :=
  match stripStart? mark.toList cs with
  | some rest => (true, trimStart rest)
  | none => (false, cs)

/-- What a parameter binds, and what follows it. -/
def takeBinding? (cs : List Char) : Option (Binding × List Char) :=
  match cs with
  | '{' :: _ | '[' :: _ => do
    let close ← closeOf? cs
    return (.pattern (String.ofList (cs.take (close + 1))), trimStart (cs.drop (close + 1)))
  | _ => (takeName? cs).map fun (name, rest) => (.identifier name, rest)

/-- The type that stands between a parameter and its initial value: `none` for nothing, and no
reading for a text that is not `: type`. -/
def readTypeOf? (cs : List Char) : Option (Option TypeExpr) :=
  match trim cs with
  | [] => some none
  | ':' :: type =>
    match trim type with
    | [] => none
    | source => some (some (.text (String.ofList source)))
  | _ => none

/-- Read a parameter: `...name?: type = initializer`. -/
def readParameter? (text : List Char) : Option Parameter := do
  let (rest, cs) := takeMark "..." (trim text)
  let (name, cs) ← takeBinding? cs
  let (optional, cs) := takeMark "?" cs
  let (typed, initializer) := match initializerAt? cs with
    | some place => (cs.take place, some (String.ofList (trim (cs.drop (place + 1)))))
    | none => (cs, none)
  let type? ← readTypeOf? typed
  return { rest, name, optional, type?, initializer }

/-- Whether the brace at `brace` opens an object type that is all there is after the colon, but for
a semicolon. -/
def isLoneObjectType (after : List Char) (brace : Nat) : Bool :=
  allBlank (after.take brace) &&
    match closeOf? (after.drop brace) with
    | some close =>
      let tail := trim (after.drop (brace + close + 1))
      tail == [] || tail == [';']
    | none => false

/-- The text of a type, if it is not empty. -/
def typeOfText? (source : List Char) : Option TypeExpr :=
  if source.isEmpty then none else some (.text (String.ofList source))

/-- Read what follows the parameters: the return type, and whether a body starts. -/
def readTail? (cs : List Char) : Option (Option TypeExpr × Bool) :=
  match cs with
  | ':' :: after =>
    match lastTopLevel? '{' after with
    | some brace =>
      if isLoneObjectType after brace then bodiless after
      else some (typeOfText? (trim (after.take brace)), true)
    | none => bodiless after
  | '{' :: _ => some (none, true)
  | [] | [';'] => some (none, false)
  | _ => none
where
  bodiless (after : List Char) : Option (Option TypeExpr × Bool) :=
    some (typeOfText? (trimEnd (trimEndBy (· == ';') (trim after))), false)

/-- Read the type parameters at the start of `cs`, if there are any. -/
def takeTypeParameters? (cs : List Char) : Option (Option String × List Char) :=
  match cs with
  | '<' :: _ => (takeGroup? cs).map fun (inside, rest) => (some (String.ofList (trim inside)), rest)
  | _ => some (none, cs)

/-- Read the parameters at the start of `cs`. -/
def takeParameters? (cs : List Char) : Option (List Parameter × List Char) := do
  guard (cs.head? == some '(')
  let (inside, rest) ← takeGroup? cs
  let parameters ← (topLevelPieces ',' inside).mapM readParameter?
  return (parameters, rest)

/-- The declaration whose header is `text`. -/
def FunctionDecl.ofChars? (text : List Char) : Option FunctionDecl := do
  let (modifiers, cs) := takeKeywords (trim text)
  let cs ← afterKeyword? "function" cs
  let (generator, cs) := takeMark "*" cs
  let (name, cs) ← takeName? cs
  let (typeParameters, cs) ← takeTypeParameters? cs
  let (parameters, cs) ← takeParameters? cs
  let (returnType, hasBody) ← readTail? cs
  return { modifiers, generator, name, typeParameters, parameters, returnType,
           body := if hasBody then some [] else none }

/-- The declaration whose header is `text`. -/
def FunctionDecl.ofText? (text : String) : Option FunctionDecl := ofChars? text.toList

end Assist.Signature
