import Assist.Proofs.Signature.Header
import Assist.Signature.Printer

/-!
# Printed parts of a signature

What can be printed so that it is read back: types (`IsParameterType`, `IsReturnType`, and `Member`s
whose types are closed texts), patterns that are one group, parameters. What is printed of them is
closed, and a parameter is free of commas at its top level (`Parameter.closed_print`,
`Parameter.freeOf_print`), so a list of parameters can be taken apart again.

A reader does not take inline object types and object patterns apart: it keeps them as they are
written. `flatten` puts a printed text in their place, and this is what is read back
(`readParameter?_print`).
-/

namespace Assist.Signature

open Assist.Text

/-! ## Types -/

mutual

/-- A type that leaves no bracket or string literal open. -/
def TypeExpr.Balanced : TypeExpr → Prop
  | .text source => Closed source.toList
  | .literal members => balancedMembers members

/-- Members with ASCII identifiers as names and such types. -/
def balancedMembers : List Member → Prop
  | [] => True
  | member :: members => member.Balanced ∧ balancedMembers members

def Member.Balanced : Member → Prop
  | .mk name _ none => IsIdentifier name
  | .mk name _ (some type) => IsIdentifier name ∧ type.Balanced

end

theorem Layout.closed_indent (layout : Layout) (level : Nat) :
    Closed (layout.indent level).toList := by
  have hunit : ∀ c ∈ layout.unit.toList, isInert c = true := by
    intro c hc
    unfold Layout.unit at hc
    split at hc
    · rw [String.toList_ofList] at hc
      rw [List.eq_of_mem_replicate hc]
      decide
    · have hmem : c ∈ ['\t'] := hc
      rw [List.mem_singleton.mp hmem]
      decide
  refine Closed.of_isInert fun c hc => ?_
  rw [Layout.indent, String.toList_join] at hc
  obtain ⟨unit, hmem, hc⟩ := List.mem_flatMap.mp hc
  rw [List.eq_of_mem_replicate hmem] at hc
  exact hunit c hc

/-- An inline object type is one group. -/
theorem TypeExpr.print_literal (layout : Layout) (level : Nat) (members : List Member)
    (h : Closed (printMembers layout (level + 1) members).toList) :
    ∃ inner, (TypeExpr.print layout level (.literal members)).toList = '{' :: (inner ++ ['}']) ∧
      Closed inner := by
  cases members with
  | nil => exact ⟨[], by simp [TypeExpr.print], Closed.nil⟩
  | cons member members =>
    refine ⟨'\n' :: ((printMembers layout (level + 1) (member :: members)).toList ++
      (layout.indent level).toList), ?_, ?_⟩
    · simp [TypeExpr.print]
    · exact (by decide : Closed ['\n']).append (h.append (layout.closed_indent level))

mutual

theorem TypeExpr.closed_print (layout : Layout) (level : Nat) :
    ∀ type : TypeExpr, type.Balanced → Closed (type.print layout level).toList
  | .text source, h => h
  | .literal members, h => by
    obtain ⟨inner, htext, hinner⟩ := TypeExpr.print_literal layout level members
      (closed_printMembers layout (level + 1) members h)
    rw [htext]
    exact Closed.group (by decide) hinner fun _ => rfl

theorem closed_printMembers (layout : Layout) (level : Nat) :
    ∀ members : List Member, balancedMembers members →
      Closed (printMembers layout level members).toList
  | [], _ => Closed.nil
  | member :: members, ⟨hmember, hmembers⟩ => by
    have hprinted := Member.closed_print layout level member hmember
    have hrest := closed_printMembers layout level members hmembers
    rw [printMembers]
    simp only [String.toList_append]
    exact (((layout.closed_indent level).append hprinted).append (by decide)).append hrest

theorem Member.closed_print (layout : Layout) (level : Nat) :
    ∀ member : Member, member.Balanced → Closed (member.print layout level).toList
  | .mk name optional none, h => by
    rw [Member.print, String.toList_append]
    refine IsIdentifier.closed h |>.append ?_
    cases optional <;> decide
  | .mk name optional (some type), ⟨hname, htype⟩ => by
    have hprinted := TypeExpr.closed_print layout level type htype
    rw [Member.print]
    simp only [String.toList_append]
    refine ((hname.closed.append ?_).append (by decide)).append hprinted
    cases optional <;> decide

end

/-- A type that is read back behind a parameter. -/
def TypeExpr.IsParameterType : TypeExpr → Prop
  | .text source => Signature.IsParameterType source
  | .literal members => balancedMembers members

/-- A type that is read back before a body. -/
def TypeExpr.IsReturnType : TypeExpr → Prop
  | .text source => source.toList ≠ [] ∧ trim source.toList = source.toList ∧ Closed source.toList
  | .literal members => balancedMembers members

/-- A type as it is written. -/
def TypeExpr.flatten (layout : Layout) (type : TypeExpr) : TypeExpr := .text (type.print layout 0)

theorem isParameterType_group {type : String} {inner : List Char}
    (htext : type.toList = '{' :: (inner ++ ['}'])) (hinner : Closed inner) :
    IsParameterType type := by
  have hcloses : ∀ prev, closes prev '}' = true := fun _ => rfl
  have hfree : ∀ c, '{' ≠ c → FreeOf c type.toList := by
    intro c hc
    rw [htext]
    exact FreeOf.group (by decide) hinner hcloses hc
  refine ⟨?_, ?_, ?_, hfree ',' (by decide), NoInitializer.of_freeOf (hfree '=' (by decide))⟩
  · rw [htext]
    exact List.cons_ne_nil _ _
  · rw [htext, trim, trimStart_cons (by decide)]
    exact trimEnd_concat (by decide) ('{' :: inner)
  · rw [htext]
    exact Closed.group (by decide) hinner hcloses

theorem TypeExpr.isParameterType_print (layout : Layout) {type : TypeExpr}
    (h : type.IsParameterType) : Signature.IsParameterType (type.print layout 0) := by
  cases type with
  | text source => exact h
  | literal members =>
    obtain ⟨inner, htext, hinner⟩ := TypeExpr.print_literal layout 0 members
      (closed_printMembers layout 1 members h)
    exact isParameterType_group htext hinner

theorem TypeExpr.isReturnType_print (layout : Layout) {type : TypeExpr} (h : type.IsReturnType) :
    (TypeExpr.text (type.print layout 0)).IsReturnType := by
  cases type with
  | text source => exact h
  | literal members =>
    obtain ⟨hne, htrim, hclosed, -, -⟩ := TypeExpr.isParameterType_print layout
      (show TypeExpr.IsParameterType (.literal members) from h)
    exact ⟨hne, htrim, hclosed⟩

/-! ## What a parameter binds -/

/-- A pattern that is one group of closed text between braces or square brackets. -/
def IsPatternText (source : String) : Prop :=
  ∃ o c inner, IsPatternBrackets o c ∧ Closed inner ∧ source.toList = o :: (inner ++ [c])

structure PatternElement.Readable (element : PatternElement) : Prop where
  property : ∀ property ∈ element.property, IsIdentifier property
  name : IsIdentifier element.name

def Binding.Readable : Binding → Prop
  | .identifier name => IsIdentifier name
  | .object elements => ∀ element ∈ elements, element.Readable
  | .pattern source => IsPatternText source

/-- A binding as it is read: a pattern is kept as it is written. -/
def Binding.flatten : Binding → Binding
  | .object elements => .pattern (Binding.print (.object elements))
  | binding => binding

theorem PatternElement.closed_print {element : PatternElement} (h : element.Readable) :
    Closed element.print.toList := by
  unfold PatternElement.print
  split
  · rename_i property hproperty
    simp only [String.toList_append]
    exact ((h.property property hproperty).closed.append (by decide)).append h.name.closed
  · exact h.name.closed

theorem isPatternText_object {elements : List PatternElement}
    (h : ∀ element ∈ elements, element.Readable) :
    IsPatternText (Binding.print (.object elements)) := by
  cases elements with
  | nil => exact ⟨'{', '}', [], Or.inl ⟨rfl, rfl⟩, Closed.nil, rfl⟩
  | cons element elements =>
    let texts := (element :: elements).map fun e => e.print.toList
    have htexts : Closed ([',', ' '].intercalate texts) := by
      refine Closed.intercalate fun text htext => ?_
      obtain ⟨e, he, rfl⟩ := List.mem_map.mp htext
      exact PatternElement.closed_print (h e he)
    refine ⟨'{', '}', ' ' :: ([',', ' '].intercalate texts ++ [' ']), Or.inl ⟨rfl, rfl⟩, ?_, ?_⟩
    · exact (by decide : Closed [' ']).append (htexts.append (by decide))
    · simp [Binding.print, texts, String.toList_intercalate, Function.comp_def]

/-- A binding is a name, or is written as one group and kept so. -/
theorem Binding.readable_cases {binding : Binding} (h : binding.Readable) :
    (∃ name, binding = .identifier name ∧ IsIdentifier name) ∨
      (IsPatternText binding.print ∧ binding.flatten = .pattern binding.print) := by
  cases binding with
  | identifier name => exact Or.inl ⟨name, rfl, h⟩
  | object elements => exact Or.inr ⟨isPatternText_object h, rfl⟩
  | pattern source => exact Or.inr ⟨h, rfl⟩

/-- What is printed of a binding starts and ends with a character that is neither blank nor part of
a mark. -/
theorem Binding.print_ends {binding : Binding} (h : binding.Readable) :
    (∃ c rest, binding.print.toList = c :: rest ∧ isBlank c = false ∧ c ≠ '.') ∧
      ∀ c ∈ binding.print.toList.getLast?, isBlank c = false := by
  rcases Binding.readable_cases h with ⟨name, rfl, hname⟩ | ⟨⟨o, c, inner, hoc, -, htext⟩, -⟩
  · obtain ⟨c, rest, hcons, hc⟩ := hname.exists_cons
    refine ⟨⟨c, rest, hcons, not_isBlank_of_ascii hc, ?_⟩, ?_⟩
    · rintro rfl
      exact absurd hc (by decide)
    · intro d hd
      exact not_isBlank_of_ascii (hname.2 d (List.mem_of_getLast? hd))
  · rw [htext]
    rcases hoc with ⟨rfl, rfl⟩ | ⟨rfl, rfl⟩
    · refine ⟨⟨'{', _, rfl, by decide, by decide⟩, ?_⟩
      exact trimEnd_eq_self_iff.mp (trimEnd_concat (by decide) ('{' :: inner))
    · refine ⟨⟨'[', _, rfl, by decide, by decide⟩, ?_⟩
      exact trimEnd_eq_self_iff.mp (trimEnd_concat (by decide) ('[' :: inner))

theorem Binding.isPiece_print {binding : Binding} (h : binding.Readable) :
    IsPiece binding.print.toList := by
  rcases Binding.readable_cases h with ⟨name, rfl, hname⟩ | ⟨⟨o, c, inner, hoc, hinner, htext⟩, -⟩
  · exact ⟨hname.closed, hname.freeOf (by decide)⟩
  · have hne : o ≠ ',' := by
      rintro rfl
      exact absurd hoc.opens (by decide)
    rw [htext]
    exact ⟨Closed.group hoc.opens hinner hoc.closes,
      FreeOf.group hoc.opens hinner hoc.closes hne⟩

theorem takeBinding?_print {binding : Binding} (h : binding.Readable) {cs : List Char}
    (hcs : ∀ c ∈ cs.head?, isNameChar c = false) :
    takeBinding? (binding.print.toList ++ cs) = some (binding.flatten, trimStart cs) := by
  rcases Binding.readable_cases h with
    ⟨name, rfl, hname⟩ | ⟨⟨o, c, inner, hoc, hinner, htext⟩, hflat⟩
  · exact takeBinding?_identifier hname hcs
  · rw [hflat, ← String.ofList_toList (s := binding.print), htext, String.toList_ofList]
    exact takeBinding?_group hoc hinner cs

/-! ## Parameters -/

structure Parameter.Readable (p : Parameter) : Prop where
  name : p.name.Readable
  type : ∀ type ∈ p.type?, type.IsParameterType
  initializer : ∀ i ∈ p.initializer, trim i.toList = i.toList ∧ IsPiece i.toList

/-- A parameter as it is read: its type and its pattern are kept as they are written. -/
def Parameter.flatten (layout : Layout) (p : Parameter) : Parameter :=
  { p with name := p.name.flatten, type? := p.type?.map (TypeExpr.flatten layout) }

/-- The type of a parameter as it is written. -/
def Parameter.typeSource? (layout : Layout) (p : Parameter) : Option String :=
  p.type?.map (TypeExpr.print layout 0)

theorem Parameter.toList_print (layout : Layout) (p : Parameter) :
    (p.print layout).toList = (if p.rest then "...".toList else []) ++ (p.name.print.toList ++
      ((if p.optional then "?".toList else []) ++
        (typeText (p.typeSource? layout) ++ initializerText p.initializer))) := by
  obtain ⟨rest, name, optional, type?, initializer⟩ := p
  cases rest <;> cases optional <;> cases type? <;> cases initializer <;>
    simp [Parameter.print, Parameter.typeSource?, typeText, initializerText]

theorem Parameter.Readable.isParameterType {p : Parameter} (h : p.Readable) (layout : Layout) :
    ∀ type ∈ p.typeSource? layout, IsParameterType type := by
  intro type htype
  obtain ⟨t, ht, rfl⟩ := Option.map_eq_some_iff.mp htype
  exact TypeExpr.isParameterType_print layout (h.type t ht)

theorem Parameter.isPiece_print (layout : Layout) {p : Parameter} (h : p.Readable) :
    IsPiece (p.print layout).toList := by
  have hrest : IsPiece (if p.rest then "...".toList else []) := by
    cases p.rest <;> decide
  have hoptional : IsPiece (if p.optional then "?".toList else []) := by
    cases p.optional <;> decide
  have htype : IsPiece (typeText (p.typeSource? layout)) := by
    cases hsource : p.typeSource? layout with
    | none => decide
    | some type =>
      have hp := h.isParameterType layout type hsource
      exact (by decide : IsPiece [':', ' ']).append ⟨hp.closed, hp.noComma⟩
  have hinit : IsPiece (initializerText p.initializer) := by
    cases hi : p.initializer with
    | none => decide
    | some i => exact (by decide : IsPiece [' ', '=', ' ']).append (h.initializer i hi).2
  rw [Parameter.toList_print]
  exact hrest.append ((Binding.isPiece_print h.name).append (hoptional.append (htype.append hinit)))

/-- The end of a parameter as it is left once the parameter is trimmed. -/
def Parameter.trimmedEnd (layout : Layout) (p : Parameter) : List Char :=
  trimEnd (typeText (p.typeSource? layout) ++ initializerText p.initializer)

theorem Parameter.trim_print (layout : Layout) {p : Parameter} (h : p.Readable) :
    trim (p.print layout).toList = (if p.rest then "...".toList else []) ++ (p.name.print.toList ++
      ((if p.optional then "?".toList else []) ++ p.trimmedEnd layout)) := by
  obtain ⟨⟨c, rest, hcons, hblank, -⟩, hlast⟩ := Binding.print_ends h.name
  have hstart : trimStart (p.print layout).toList = (p.print layout).toList := by
    rw [Parameter.toList_print, hcons]
    cases p.rest with
    | false => exact trimStart_cons hblank _
    | true => exact trimStart_cons (by decide) _
  have hmarks : ∀ d ∈ ((if p.rest then "...".toList else []) ++ (p.name.print.toList ++
      (if p.optional then "?".toList else []))).getLast?, isBlank d = false := by
    intro d hd
    rw [List.getLast?_append_of_ne_nil _ (by simp [hcons])] at hd
    cases hoptional : p.optional with
    | false =>
      rw [hoptional, if_neg Bool.false_ne_true, List.append_nil] at hd
      exact hlast d hd
    | true =>
      rw [hoptional, if_pos rfl, List.getLast?_append_of_ne_nil _ (by simp)] at hd
      obtain rfl : '?' = d := by simpa using hd
      decide
  have hend := trimEnd_append hmarks
    (typeText (p.typeSource? layout) ++ initializerText p.initializer)
  simp only [List.append_assoc] at hend
  rw [trim, hstart, Parameter.toList_print, hend, Parameter.trimmedEnd]

/-- The end of a parameter cannot be taken for more of a name. -/
theorem Parameter.head_trimmedEnd (layout : Layout) (p : Parameter) :
    ∀ c ∈ (p.trimmedEnd layout).head?, isNameChar c = false := by
  intro c hc
  have hhead := head?_trimEnd hc
  cases htype : p.typeSource? layout with
  | some type =>
    obtain rfl : ':' = c := by simpa [htype, typeText] using hhead
    decide
  | none =>
    cases hinit : p.initializer with
    | some i =>
      obtain rfl : ' ' = c := by simpa [htype, hinit, typeText, initializerText] using hhead
      decide
    | none => simp [htype, hinit, typeText, initializerText] at hhead

/-- Nor does it start with the mark of an optional parameter. -/
theorem Parameter.stripStart?_trimmedEnd (layout : Layout) {p : Parameter} (h : p.Readable) :
    stripStart? "?".toList (trimStart (p.trimmedEnd layout)) = none := by
  unfold Parameter.trimmedEnd
  cases p.typeSource? layout with
  | some type =>
    have hcolon : ∀ c ∈ [':'].getLast?, isBlank c = false := by
      intro c hc
      obtain rfl : ':' = c := by simpa using hc
      decide
    have hend := trimEnd_append hcolon (' ' :: (type.toList ++ initializerText p.initializer))
    have hstart : trimStart (trimEnd (typeText (some type) ++ initializerText p.initializer)) =
        ':' :: trimEnd (' ' :: (type.toList ++ initializerText p.initializer)) := by
      rw [show typeText (some type) ++ initializerText p.initializer =
        [':'] ++ ' ' :: (type.toList ++ initializerText p.initializer) from rfl, hend]
      exact trimStart_cons (by decide) _
    rw [hstart]
    rfl
  | none =>
    cases hinit : p.initializer with
    | none => rfl
    | some i =>
      obtain ⟨rest, hend, -, -⟩ := trimEnd_initializer (h.initializer i hinit).1 []
      rw [show typeText none ++ initializerText (some i) = [] ++ ' ' :: '=' :: ' ' :: i.toList
        from rfl, hend]
      rfl

/-- **Reading a parameter.** What is printed of a parameter is read as the parameter with its type
and its pattern as they are written. -/
theorem readParameter?_print (layout : Layout) {p : Parameter} (h : p.Readable) :
    readParameter? (trim (p.print layout).toList) = some (p.flatten layout) := by
  obtain ⟨⟨c, cs, hcons, hblank, hdot⟩, -⟩ := Binding.print_ends h.name
  let fromOptional := (if p.optional then "?".toList else []) ++ p.trimmedEnd layout
  have htrim : trim (trim (p.print layout).toList) =
      (if p.rest then "...".toList else []) ++ (p.name.print.toList ++ fromOptional) := by
    rw [trim_trim, Parameter.trim_print layout h]
  have hname : trimStart (p.name.print.toList ++ fromOptional) =
      p.name.print.toList ++ fromOptional := by
    rw [hcons]
    exact trimStart_cons hblank _
  have hall : trimStart ((if p.rest then "...".toList else []) ++
      (p.name.print.toList ++ fromOptional)) =
      (if p.rest then "...".toList else []) ++ (p.name.print.toList ++ fromOptional) := by
    cases p.rest with
    | false => exact hname
    | true => exact trimStart_cons (by decide) _
  have hrest : takeMark "..." (trim (trim (p.print layout).toList)) =
      (p.rest, p.name.print.toList ++ fromOptional) := by
    have hnone : stripStart? "...".toList (trimStart (p.name.print.toList ++ fromOptional)) =
        none := by
      rw [hname, hcons]
      simp [stripStart?, hdot.symm]
    have htake := @takeMark_trimStart "..." ⟨'.', ['.', '.'], rfl, by decide⟩ p.rest _ hnone
    rw [hname, hall] at htake
    rw [htrim]
    exact htake
  have hbinding : takeBinding? (p.name.print.toList ++ fromOptional) =
      some (p.name.flatten, trimStart fromOptional) := by
    refine takeBinding?_print h.name fun d hd => ?_
    cases hoptional : p.optional with
    | false =>
      simp only [fromOptional, hoptional, Bool.false_eq_true, if_false, List.nil_append] at hd
      exact Parameter.head_trimmedEnd layout p d hd
    | true =>
      obtain rfl : '?' = d := by simpa [fromOptional, hoptional] using hd
      decide
  have hoptional : takeMark "?" (trimStart fromOptional) =
      (p.optional, trimStart (p.trimmedEnd layout)) :=
    @takeMark_trimStart "?" ⟨'?', [], rfl, by decide⟩ p.optional _
      (Parameter.stripStart?_trimmedEnd layout h)
  have hend := readAnnotation?_trim (h.isParameterType layout) fun i hi => (h.initializer i hi).1
  rw [readParameter?_eq_some hrest hbinding hoptional hend, Parameter.flatten,
    Parameter.typeSource?, Option.map_map]
  rfl

end Assist.Signature
