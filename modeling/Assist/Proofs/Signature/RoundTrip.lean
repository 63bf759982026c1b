import Assist.Proofs.Signature.Printing
import Assist.Proofs.Signature.Splitting

/-!
# Printing and reading back

A declaration with an empty body is read back from its printed form, with inline object types and
object patterns as they are written (`ofText?_print`). The conditions on its parts (`Readable`) are
those under which a scan finds the ends of the parts: names are identifiers, every text leaves no
bracket and no string literal open, and a text that stands before a comma, an initial value or a
closing angle bracket does not contain or imitate it.
-/

namespace Assist.Signature

open Assist.Text

structure FunctionDecl.Readable (decl : FunctionDecl) : Prop where
  modifiers : ∀ m ∈ decl.modifiers, m ∈ leadingKeywords
  name : IsIdentifier decl.name
  typeParameters : ∀ types ∈ decl.typeParameters, IsTypeParameters types
  parameters : ∀ p ∈ decl.parameters, p.Readable
  returnType : ∀ type ∈ decl.returnType, type.IsReturnType
  body : decl.body = some []

/-- A declaration as it is read: types and patterns are kept as they are written. -/
def FunctionDecl.flatten (layout : Layout) (decl : FunctionDecl) : FunctionDecl :=
  { decl with
    parameters := decl.parameters.map (Parameter.flatten layout)
    returnType := decl.returnType.map (TypeExpr.flatten layout) }

/-! ## Flattening and printing -/

theorem TypeExpr.print_flatten (layout : Layout) (type : TypeExpr) :
    (type.flatten layout).print layout 0 = type.print layout 0 := by
  rw [TypeExpr.flatten, TypeExpr.print]

theorem Binding.print_flatten (binding : Binding) : binding.flatten.print = binding.print := by
  cases binding with
  | identifier name => rfl
  | object elements => rfl
  | pattern source => rfl

theorem Parameter.print_flatten (layout : Layout) (p : Parameter) :
    (p.flatten layout).print layout = p.print layout := by
  obtain ⟨rest, name, optional, type?, initializer⟩ := p
  cases type? with
  | none =>
    simp only [Parameter.flatten, Parameter.print, Binding.print_flatten, Option.map_none]
    rfl
  | some type =>
    simp only [Parameter.flatten, Parameter.print, Binding.print_flatten, Option.map_some,
      TypeExpr.print_flatten]
    rfl

/-- Nothing that is printed depends on how a type or a pattern is represented. -/
theorem FunctionDecl.print_flatten (layout : Layout) (decl : FunctionDecl) :
    (decl.flatten layout).print layout = decl.print layout := by
  have hparameters : (decl.parameters.map (Parameter.flatten layout)).map (Parameter.print layout) =
      decl.parameters.map (Parameter.print layout) := by
    rw [List.map_map]
    exact List.map_congr_left fun p _ => Parameter.print_flatten layout p
  obtain ⟨modifiers, generator, name, typeParameters, parameters, returnType, body⟩ := decl
  cases returnType with
  | none =>
    simp only [FunctionDecl.flatten, FunctionDecl.print, hparameters, Option.map_none]
    rfl
  | some type =>
    simp only [FunctionDecl.flatten, FunctionDecl.print, hparameters, Option.map_some,
      TypeExpr.print_flatten]
    rfl

/-! ## The printed declaration -/

/-- The parameters of a declaration as they are written. -/
def FunctionDecl.parametersText (layout : Layout) (decl : FunctionDecl) : List Char :=
  [',', ' '].intercalate (decl.parameters.map fun p => (p.print layout).toList)

/-- What is written behind the parameters of a declaration with an empty body. -/
def FunctionDecl.tailText (layout : Layout) (decl : FunctionDecl) : List Char :=
  typeText (decl.returnType.map (TypeExpr.print layout 0)) ++ [' ', '{', ' ', '}']

theorem FunctionDecl.toList_print (layout : Layout) {decl : FunctionDecl}
    (h : decl.body = some []) :
    (decl.print layout).toList = headerText decl.modifiers decl.generator decl.name
      decl.typeParameters (decl.parametersText layout) ++ decl.tailText layout := by
  have hmodifiers : (String.join (decl.modifiers.map (· ++ " "))).toList =
      keywordsText decl.modifiers := by
    rw [String.toList_join, List.flatMap_map]
    simp [keywordsText]
  have hparameters : (", ".intercalate (decl.parameters.map (Parameter.print layout))).toList =
      decl.parametersText layout := by
    simp [FunctionDecl.parametersText, String.toList_intercalate, Function.comp_def]
  obtain ⟨modifiers, generator, name, typeParameters, parameters, returnType, body⟩ := decl
  subst h
  cases generator <;> cases typeParameters <;> cases returnType <;>
    simp [FunctionDecl.print, hmodifiers, hparameters, headerText, nameText, typeParametersText,
      FunctionDecl.tailText, typeText, printBody]

theorem topLevelPieces_parametersText (layout : Layout) {decl : FunctionDecl}
    (h : ∀ p ∈ decl.parameters, p.Readable) :
    topLevelPieces ',' (decl.parametersText layout) =
      decl.parameters.map fun p => trim (p.print layout).toList := by
  rw [FunctionDecl.parametersText, topLevelPieces_intercalate, List.map_map]
  · rfl
  · intro text htext
    obtain ⟨p, hp, rfl⟩ := List.mem_map.mp htext
    refine ⟨Parameter.isPiece_print layout (h p hp), ?_⟩
    obtain ⟨⟨c, rest, hcons, -⟩, -⟩ := Binding.print_ends (h p hp).name
    rw [Parameter.trim_print layout (h p hp), hcons]
    simp

theorem mapM_readParameter? (layout : Layout) {parameters : List Parameter}
    (h : ∀ p ∈ parameters, p.Readable) :
    (parameters.map fun p => trim (p.print layout).toList).mapM readParameter? =
      some (parameters.map (Parameter.flatten layout)) := by
  induction parameters with
  | nil => rfl
  | cons p parameters ih =>
    rw [List.map_cons, List.mapM_cons, readParameter?_print layout (h p (by simp)),
      ih fun q hq => h q (by simp [hq])]
    rfl

theorem readTail?_tailText (layout : Layout) {decl : FunctionDecl}
    (h : ∀ type ∈ decl.returnType, type.IsReturnType) :
    readTail? (trimStart (decl.tailText layout)) =
      some (decl.returnType.map (TypeExpr.flatten layout), true) := by
  unfold FunctionDecl.tailText
  cases hreturn : decl.returnType with
  | none => rfl
  | some type =>
    obtain ⟨hne, htrim, hclosed⟩ := TypeExpr.isReturnType_print layout (h type hreturn)
    have hstart : trimStart (typeText (some (type.print layout 0)) ++ [' ', '{', ' ', '}']) =
        typeText (some (type.print layout 0)) ++ ' ' :: '{' :: [' ', '}'] :=
      trimStart_cons (by decide) _
    rw [Option.map_some, hstart, readTail?_body hne htrim hclosed (by decide)]
    rfl

/-! ## The round trip -/

/-- **Printing and reading back.** What is printed of a declaration is read as the declaration with
its types and patterns as they are written, and this prints as before. -/
theorem ofText?_print (layout : Layout) {decl : FunctionDecl} (h : decl.Readable) :
    FunctionDecl.ofText? (decl.print layout) = some (decl.flatten layout) ∧
      (decl.flatten layout).print layout = decl.print layout := by
  refine ⟨?_, FunctionDecl.print_flatten layout decl⟩
  have hinside : Closed (decl.parametersText layout) := by
    refine Closed.intercalate fun text htext => ?_
    obtain ⟨p, hp, rfl⟩ := List.mem_map.mp htext
    exact (Parameter.isPiece_print layout (h.parameters p hp)).closed
  have hparameters : (topLevelPieces ',' (decl.parametersText layout)).mapM readParameter? =
      some (decl.parameters.map (Parameter.flatten layout)) := by
    rw [topLevelPieces_parametersText layout h.parameters]
    exact mapM_readParameter? layout h.parameters
  have htail : trimEnd (decl.tailText layout) = decl.tailText layout := by
    have hsplit : decl.tailText layout =
        (typeText (decl.returnType.map (TypeExpr.print layout 0)) ++ [' ', '{', ' ']) ++ ['}'] := by
      simp [FunctionDecl.tailText]
    rw [hsplit]
    exact trimEnd_concat (by decide) _
  rw [FunctionDecl.ofText?, FunctionDecl.toList_print layout h.body,
    ofChars?_header h.modifiers h.name h.typeParameters hinside hparameters htail
      (readTail?_tailText layout h.returnType), FunctionDecl.flatten, h.body]
  rfl

/-- `async function* load<T = {}>({ id, kind: k }?: …, f: (a, b) => T = x => x): Promise<T> { }`,
with an object type for the first parameter. -/
def loadDecl : FunctionDecl where
  modifiers := ["async"]
  generator := true
  name := "load"
  typeParameters := some "T = \x7b\x7d"
  parameters := [
    ⟨false, .object [⟨none, "id"⟩, ⟨some "kind", "k"⟩], true,
      some (.literal [.mk "id" false (some (.text "string")), .mk "kind" true none]), none⟩,
    ⟨false, .identifier "f", false, some (.text "(a, b) => T"), some "x => x"⟩]
  returnType := some (.text "Promise<T>")
  body := some []

theorem ofText?_print_load :
    FunctionDecl.ofText? (loadDecl.print Layout.standard) =
        some (loadDecl.flatten Layout.standard) ∧
      (loadDecl.flatten Layout.standard).print Layout.standard =
        loadDecl.print Layout.standard := by
  refine ofText?_print Layout.standard ⟨by decide, by decide, ?_, ?_, ?_, rfl⟩
  · rintro types ⟨⟩
    exact ⟨by decide, by decide, by decide⟩
  · intro p hp
    simp only [loadDecl, List.mem_cons, List.not_mem_nil, or_false] at hp
    rcases hp with rfl | rfl
    · refine ⟨?_, ?_, by rintro i ⟨⟩⟩
      · intro element helement
        rcases List.mem_cons.mp helement with rfl | helement
        · exact ⟨by rintro p ⟨⟩, by decide⟩
        · obtain rfl := List.mem_singleton.mp helement
          exact ⟨by rintro p ⟨⟩; decide, by decide⟩
      · rintro type ⟨⟩
        simp only [TypeExpr.IsParameterType, balancedMembers, Member.Balanced, TypeExpr.Balanced]
        decide
    · refine ⟨(by decide : IsIdentifier "f"), ?_, ?_⟩
      · rintro type ⟨⟩
        exact ⟨by decide, by decide, by decide, by decide, by decide⟩
      · rintro i ⟨⟩
        exact ⟨by decide, by decide, by decide⟩
  · rintro type ⟨⟩
    exact ⟨by decide, by decide, by decide⟩

end Assist.Signature
