import Assist.Proofs.Signature.Reading

/-!
# Reading a header

What is read from a header that is put together from its parts: the keywords, `function`, the name,
the type parameters, the parameters and a tail (`ofChars?_header`). The tail is left to
`readTail?`: with a return type and a body it is read by `readTail?_body`.
-/

namespace Assist.Signature

open Assist.Text

/-! ## Keywords -/

/-- Keywords as they are written, each with a blank behind it. -/
def keywordsText (keywords : List String) : List Char :=
  keywords.flatMap fun keyword => keyword.toList ++ [' ']

theorem takeKeyword?_append {keyword : String} (h : keyword ∈ leadingKeywords) (cs : List Char) :
    takeKeyword? (keyword.toList ++ ' ' :: cs) = some (keyword, trimStart cs) := by
  simp only [leadingKeywords, List.mem_cons, List.not_mem_nil, or_false] at h
  rcases h with rfl | rfl | rfl | rfl <;>
    simp [takeKeyword?, leadingKeywords, afterKeyword?, stripStart?, isNameChar, trimStart_space]

theorem takeKeyword?_function (cs : List Char) :
    takeKeyword? ("function".toList ++ cs) = none := by
  simp [takeKeyword?, leadingKeywords, afterKeyword?, stripStart?]

theorem trimStart_keywordsText {keywords : List String} (h : ∀ k ∈ keywords, k ∈ leadingKeywords)
    {cs : List Char} (hcs : trimStart cs = cs) :
    trimStart (keywordsText keywords ++ cs) = keywordsText keywords ++ cs := by
  cases keywords with
  | nil => exact hcs
  | cons keyword keywords =>
    have hkeyword := h keyword (by simp)
    rw [trimStart_eq_self_iff]
    simp only [leadingKeywords, List.mem_cons, List.not_mem_nil, or_false] at hkeyword
    rcases hkeyword with rfl | rfl | rfl | rfl <;> simp [keywordsText] <;> decide

/-- The keywords end where none is left to take. -/
theorem takeKeywords_append {keywords : List String} (h : ∀ k ∈ keywords, k ∈ leadingKeywords)
    {cs : List Char} (hcs : trimStart cs = cs) (hnone : takeKeyword? cs = none) :
    takeKeywords (keywordsText keywords ++ cs) = (keywords, cs) := by
  induction keywords with
  | nil =>
    rw [show keywordsText [] ++ cs = cs from rfl, takeKeywords]
    split
    · rfl
    · rename_i htake
      rw [hnone] at htake
      exact absurd htake (by simp)
  | cons keyword keywords ih =>
    have hrest : ∀ k ∈ keywords, k ∈ leadingKeywords := fun k hk => h k (by simp [hk])
    have htext : keywordsText (keyword :: keywords) ++ cs =
        keyword.toList ++ ' ' :: (keywordsText keywords ++ cs) := by simp [keywordsText]
    have hfirst := takeKeyword?_append (h keyword (by simp)) (keywordsText keywords ++ cs)
    rw [trimStart_keywordsText hrest hcs] at hfirst
    rw [htext, takeKeywords]
    split
    · rename_i htake
      rw [hfirst] at htake
      exact absurd htake (by simp)
    · rename_i k rest htake
      rw [hfirst, Option.some.injEq, Prod.mk.injEq] at htake
      obtain ⟨rfl, rfl⟩ := htake
      rw [ih hrest]

/-! ## Type parameters and parameters -/

/-- Type parameters as they are written. -/
def typeParametersText : Option String → List Char
  | none => []
  | some types => '<' :: (types.toList ++ ['>'])

/-- Type parameters that can be read back: the bracket behind them must not look like an arrow. -/
structure IsTypeParameters (types : String) : Prop where
  trimmed : trim types.toList = types.toList
  closed : Closed types.toList
  last : lastCode? types.toList ≠ some '='

theorem takeTypeParameters?_append {typeParameters : Option String}
    (h : ∀ types ∈ typeParameters, IsTypeParameters types) (cs : List Char) :
    takeTypeParameters? (typeParametersText typeParameters ++ '(' :: cs) =
      some (typeParameters, '(' :: cs) := by
  cases typeParameters with
  | none => rfl
  | some types =>
    obtain ⟨htrim, hclosed, hlast⟩ := h types rfl
    have hcloses : closes ((lastCode? types.toList).getD '<') '>' = true := by
      cases hcode : lastCode? types.toList with
      | none => decide
      | some c =>
        rw [hcode, ne_eq, Option.some.injEq] at hlast
        simp [closes, hlast]
    have htext : typeParametersText (some types) ++ '(' :: cs =
        '<' :: (types.toList ++ '>' :: '(' :: cs) := by simp [typeParametersText]
    have hgroup := takeGroup?_append (by decide) hclosed hcloses ('(' :: cs)
    rw [htext, takeTypeParameters?, hgroup]
    show some (some (String.ofList (trim types.toList)), '(' :: cs) = some (some types, '(' :: cs)
    rw [htrim, String.ofList_toList]

theorem takeParameters?_append {inside : List Char} (hinside : Closed inside)
    {parameters : List Parameter}
    (hread : (topLevelPieces ',' inside).mapM readParameter? = some parameters) (tail : List Char) :
    takeParameters? ('(' :: (inside ++ ')' :: tail)) = some (parameters, trimStart tail) := by
  have hgroup := takeGroup?_append (o := '(') (c := ')') (by decide) hinside rfl tail
  have hparen : (guard (('(' :: (inside ++ ')' :: tail)).head? == some '(') : Option Unit) =
      some () := rfl
  rw [takeParameters?, hparen, hgroup]
  show ((topLevelPieces ',' inside).mapM readParameter?).bind _ = _
  rw [hread]
  rfl

/-! ## The header -/

/-- A header from its mark on, up to its tail. -/
def nameText (generator : Bool) (name : String) (typeParameters : Option String)
    (inside : List Char) : List Char :=
  (if generator then "*".toList else []) ++
    ' ' :: (name.toList ++ (typeParametersText typeParameters ++ '(' :: (inside ++ [')'])))

/-- A header up to its tail. -/
def headerText (modifiers : List String) (generator : Bool) (name : String)
    (typeParameters : Option String) (inside : List Char) : List Char :=
  keywordsText modifiers ++ ("function".toList ++ nameText generator name typeParameters inside)

theorem trim_headerText {modifiers : List String} (h : ∀ m ∈ modifiers, m ∈ leadingKeywords)
    (generator : Bool) (name : String) (typeParameters : Option String) (inside : List Char)
    {tail : List Char} (htail : trimEnd tail = tail) :
    trim (headerText modifiers generator name typeParameters inside ++ tail) =
      headerText modifiers generator name typeParameters inside ++ tail := by
  have hstart : trimStart (headerText modifiers generator name typeParameters inside ++ tail) =
      headerText modifiers generator name typeParameters inside ++ tail := by
    rw [headerText, List.append_assoc]
    exact trimStart_keywordsText h rfl
  have hlast : (headerText modifiers generator name typeParameters inside).getLast? = some ')' := by
    simp [headerText, nameText, List.getLast?_append, List.getLast?_cons]
  rw [trim, hstart, trimEnd_append, htail]
  intro c hc
  rw [hlast, Option.mem_some_iff] at hc
  subst hc
  decide

/-- Behind `function` stands a mark or a blank, and then a name. -/
theorem takeMark_generator (generator : Bool) {name : String} (hname : IsIdentifier name)
    (cs : List Char) :
    takeMark "*" (trimStart ((if generator then "*".toList else []) ++
      ' ' :: (name.toList ++ cs))) = (generator, name.toList ++ cs) := by
  obtain ⟨c, rest, hcons, hc⟩ := hname.exists_cons
  have hblank : trimStart (' ' :: (name.toList ++ cs)) = name.toList ++ cs := by
    rw [trimStart_space, hcons]
    exact trimStart_cons (not_isBlank_of_ascii hc) _
  have hnone : stripStart? "*".toList (name.toList ++ cs) = none := by
    have hstar : '*' ≠ c := by
      rintro rfl
      exact absurd hc (by decide)
    simp [hcons, stripStart?, hstar]
  have htake := @takeMark_trimStart "*" ⟨'*', [], rfl, by decide⟩ generator
    (' ' :: (name.toList ++ cs)) (by rw [hblank]; exact hnone)
  rw [hblank] at htake
  exact htake

/-- **Reading a header.** Every part of a header is read as it is written; what follows the
parameters is left to `readTail?`. -/
theorem ofChars?_header {modifiers : List String} {generator : Bool} {name : String}
    {typeParameters : Option String} {inside tail : List Char} {parameters : List Parameter}
    {returnType : Option TypeExpr} {hasBody : Bool}
    (hmodifiers : ∀ m ∈ modifiers, m ∈ leadingKeywords) (hname : IsIdentifier name)
    (htypes : ∀ types ∈ typeParameters, IsTypeParameters types) (hinside : Closed inside)
    (hparameters : (topLevelPieces ',' inside).mapM readParameter? = some parameters)
    (htail : trimEnd tail = tail)
    (hread : readTail? (trimStart tail) = some (returnType, hasBody)) :
    FunctionDecl.ofChars? (headerText modifiers generator name typeParameters inside ++ tail) =
      some ⟨modifiers, generator, name, typeParameters, parameters, returnType,
        if hasBody then some [] else none⟩ := by
  -- the text from each part on
  let fromTypes := typeParametersText typeParameters ++ '(' :: (inside ++ ')' :: tail)
  let fromMark := (if generator then "*".toList else []) ++ ' ' :: (name.toList ++ fromTypes)
  have htext : headerText modifiers generator name typeParameters inside ++ tail =
      keywordsText modifiers ++ ("function".toList ++ fromMark) := by
    simp [headerText, nameText, fromMark, fromTypes]
  have hkeywords := takeKeywords_append hmodifiers rfl (takeKeyword?_function fromMark)
  have hfunction : afterKeyword? "function" ("function".toList ++ fromMark) =
      some (trimStart fromMark) := by
    have hstrip : stripStart? "function".toList ("function".toList ++ fromMark) = some fromMark :=
      stripStart?_eq_some_iff.mpr rfl
    rw [afterKeyword?, hstrip]
    cases generator <;> rfl
  have hmark : takeMark "*" (trimStart fromMark) = (generator, name.toList ++ fromTypes) :=
    takeMark_generator generator hname fromTypes
  have hhead : ∀ c ∈ fromTypes.head?, isNameChar c = false ∧ isBlank c = false := by
    cases typeParameters <;> simp [fromTypes, typeParametersText] <;> decide
  have hnameRead := takeName?_append hname (fun c hc => (hhead c hc).1)
  rw [trimStart_eq_self_iff.mpr fun c hc => (hhead c hc).2] at hnameRead
  have htypesRead := takeTypeParameters?_append htypes (inside ++ ')' :: tail)
  have hparametersRead := takeParameters?_append hinside hparameters tail
  rw [FunctionDecl.ofChars?, trim_headerText hmodifiers _ _ _ _ htail, htext]
  simp only [hkeywords, hfunction, hmark, hnameRead, fromTypes, htypesRead, hparametersRead, hread,
    Option.bind_eq_bind, Option.bind_some, Option.pure_def]

/-! ## The tail -/

theorem allBlank_of_trimmed {cs : List Char} (hne : cs ≠ []) (h : trim cs = cs) :
    allBlank cs = false := by
  obtain ⟨c, rest, rfl⟩ := List.exists_cons_of_ne_nil hne
  have hc := (trim_eq_self_iff.mp h).1 c rfl
  simp [allBlank, hc]

/-- **A return type and a body.** Whatever braces the type has, the last one opens the body. -/
theorem readTail?_body {type : String} (hne : type.toList ≠ [])
    (htrim : trim type.toList = type.toList) (hclosed : Closed type.toList) {closing : List Char}
    (hclosing : '{' ∉ closing) :
    readTail? (typeText (some type) ++ ' ' :: '{' :: closing) = some (some (.text type), true) := by
  have hafter : Closed (' ' :: (type.toList ++ [' '])) :=
    (by decide : Closed [' ']).append (hclosed.append (by decide : Closed [' ']))
  have hbrace := lastTopLevel?_append (by decide : isQuote '{' = false) hafter hclosing
  have htext : typeText (some type) ++ ' ' :: '{' :: closing =
      ':' :: ((' ' :: (type.toList ++ [' '])) ++ '{' :: closing) := by simp [typeText]
  have hlone : isLoneObjectType ((' ' :: (type.toList ++ [' '])) ++ '{' :: closing)
      (' ' :: (type.toList ++ [' '])).length = false := by
    have hblank := allBlank_of_trimmed hne htrim
    rw [allBlank] at hblank
    rw [isLoneObjectType, List.take_left]
    simp only [allBlank, List.all_cons, List.all_append, hblank, Bool.and_false, Bool.false_and]
  have hpad := trim_pad [' '] [' '] (by decide) (by decide) htrim
  simp only [List.cons_append, List.nil_append] at hpad
  rw [htext, readTail?, hbrace]
  simp only [hlone, Bool.false_eq_true, if_false, List.take_left, hpad, typeOfText?,
    String.ofList_toList]
  rw [if_neg (by simpa using hne)]

end Assist.Signature
