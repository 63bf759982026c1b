import Assist.Proofs.Extraction.Attributes
import Assist.Proofs.Syntax.Reach
import Mathlib.Data.Set.Card

/-!
# The names of new components

The names that are tried for a base are all different (`candidate_injective`), and there is one more
of them than numbers are tried. So if no more names are taken than that, one of those that are tried
is free, and the first of these is the answer (`freshName_isFirstFree`).

What is taken in a file are the texts of its identifiers, and a walk sees all of them. So the name
that an edit brings in for a component is not the text of any identifier of the file
(`freshName_unused`).
-/

namespace Assist.Extraction

open Assist.Text Assist.Signature Assist.Syntax

/-! ## The names that are tried -/

/-- The names that are tried for a base, in their order: the base, then the base with the numbers
from one on. -/
def candidate (base : String) : Nat → String
  | 0 => base
  | n + 1 => numbered base (n + 1)

theorem decimal_injective : Function.Injective decimal := by
  intro m n h
  have hdigits : Nat.toDigits 10 m = Nat.toDigits 10 n := String.ofList_injective h
  have hvalue := congrArg (fun digits => Nat.ofDigitChars 10 digits 0) hdigits
  simpa using hvalue

theorem numbered_injective (base : String) : Function.Injective (numbered base) := by
  intro m n h
  refine decimal_injective (String.toList_inj.mp ?_)
  have hlist := congrArg String.toList h
  simp only [numbered, String.toList_append] at hlist
  exact List.append_cancel_left hlist

theorem numbered_ne (base : String) (n : Nat) : numbered base n ≠ base := by
  intro h
  have hlength := congrArg String.length h
  rw [numbered, String.length_append, String.length_append] at hlength
  have hone : "_".length = 1 := by decide
  omega

theorem candidate_injective (base : String) : Function.Injective (candidate base) := by
  intro m n h
  cases m with
  | zero =>
    cases n with
    | zero => rfl
    | succ n => exact absurd h.symm (numbered_ne base (n + 1))
  | succ m =>
    cases n with
    | zero => exact absurd h (numbered_ne base (m + 1))
    | succ n => exact numbered_injective base h

/-! ## The first free name -/

/-- `name` is the first of the names that are tried for a base that is not taken. -/
def IsFirstFree (taken : String → Prop) (base name : String) : Prop :=
  ∃ n, name = candidate base n ∧ ¬taken name ∧ ∀ earlier < n, taken (candidate base earlier)

/-- There is one first free name. -/
theorem IsFirstFree.unique {taken : String → Prop} {base a b : String}
    (ha : IsFirstFree taken base a) (hb : IsFirstFree taken base b) : a = b := by
  obtain ⟨m, rfl, hm, hearlierm⟩ := ha
  obtain ⟨n, rfl, hn, hearliern⟩ := hb
  rcases Nat.lt_trichotomy m n with hlt | rfl | hlt
  · exact absurd (hearliern m hlt) hm
  · rfl
  · exact absurd (hearlierm n hlt) hn

section Search

variable {taken : String → Bool} {base : String}

/-- A search from a number on ends at the first free name, or at the last that it tries. -/
theorem exists_firstFree (taken : String → Bool) (base : String) (attempts start : Nat) :
    ∃ n, firstFree taken base attempts start = numbered base n ∧ start ≤ n ∧
      (∀ earlier, start ≤ earlier → earlier < n → taken (numbered base earlier) = true) ∧
      (taken (numbered base n) = false ∨ n = start + attempts) := by
  induction attempts generalizing start with
  | zero => exact ⟨start, rfl, Nat.le_refl _, fun earlier hle hlt => by omega, Or.inr rfl⟩
  | succ attempts ih =>
    rw [firstFree]
    cases hstart : taken (numbered base start) with
    | false =>
      rw [if_neg Bool.false_ne_true]
      exact ⟨start, rfl, Nat.le_refl _, fun earlier hle hlt => by omega, Or.inl hstart⟩
    | true =>
      obtain ⟨n, hn, hle, hearlier, hends⟩ := ih (start + 1)
      rw [if_pos rfl]
      refine ⟨n, hn, by omega, fun earlier hstart' hlt => ?_, hends.imp_right fun h => by omega⟩
      rcases Nat.eq_or_lt_of_le hstart' with rfl | hnext
      · exact hstart
      · exact hearlier earlier hnext hlt

/-- The answer is the first free name, or the last that is tried. -/
theorem exists_freshName (taken : String → Bool) (base : String) :
    ∃ n, freshName taken base = candidate base n ∧
      (∀ earlier < n, taken (candidate base earlier) = true) ∧
      (taken (candidate base n) = false ∨ n = maxNameAttempts) := by
  rw [freshName]
  cases hbase : taken base with
  | false =>
    rw [if_neg Bool.false_ne_true]
    exact ⟨0, rfl, fun earlier hlt => absurd hlt (Nat.not_lt_zero _), Or.inl hbase⟩
  | true =>
    obtain ⟨n, hn, hpos, hearlier, hends⟩ := exists_firstFree taken base (maxNameAttempts - 1) 1
    obtain ⟨k, rfl⟩ := Nat.exists_eq_add_of_le' hpos
    rw [if_pos rfl]
    refine ⟨k + 1, hn, fun earlier hlt => ?_, hends.imp_right fun h => ?_⟩
    · cases earlier with
      | zero => exact hbase
      | succ earlier => exact hearlier (earlier + 1) (by omega) hlt
    · rw [h]
      rfl

/-- **A free name is found** if no more names are taken than numbers are tried: among one more
candidate than that, all of them different, there is a free one. -/
theorem freshName_isFirstFree (htaken : {name | taken name = true}.encard ≤ maxNameAttempts)
    (base : String) : IsFirstFree (taken · = true) base (freshName taken base) := by
  obtain ⟨n, hname, hearlier, hends⟩ := exists_freshName taken base
  rw [hname]
  refine ⟨n, rfl, fun hlast => ?_, hearlier⟩
  have hn : n = maxNameAttempts := hends.resolve_left fun hfree => by
    rw [hlast] at hfree
    cases hfree
  have hall : ↑((Finset.range (n + 1)).image (candidate base)) ⊆ {name | taken name = true} := by
    intro name hmem
    obtain ⟨k, hk, rfl⟩ := Finset.mem_image.mp (Finset.mem_coe.mp hmem)
    rcases Nat.lt_succ_iff_lt_or_eq.mp (Finset.mem_range.mp hk) with hlt | rfl
    · exact hearlier k hlt
    · exact hlast
  have hcard := (Set.encard_le_encard hall).trans htaken
  rw [Set.encard_coe_eq_coe_finsetCard,
    Finset.card_image_of_injective _ (candidate_injective base), Finset.card_range, hn] at hcard
  exact absurd (Nat.cast_le.mp hcard) (Nat.not_succ_le_self _)

end Search

/-! ## The component of an edit -/

section Component

variable {σ : Type} {host : Host (StateM σ)} {tree : Tree} {request : Request} {s s' : σ}
  {info : EditInfo} {origin : String}

/-- The text is that of a component called `name`: behind blanks it begins with the header that the
host writes for it. -/
def DeclaredBy (host : Host (StateM σ)) (layout : Layout) (name text : String) : Prop :=
  ∃ function names s blanks header body, allBlank blanks = true ∧
    openHeader? (reply (host.writeSignature (componentOf name function names) layout) s).1.toList =
      some header ∧
    text = String.ofList (blanks ++ header ++ '\n' :: body)

/-- What the library writes for a component says that it is a function of that name. -/
theorem DeclaredBy.isPrefix {edits : Request → StateM σ (Option EditInfo)} {layout : Layout}
    {name text : String} (h : DeclaredBy (Host.standard edits) layout name text) :
    ("function " ++ name ++ "(").toList <+: trimStart text.toList := by
  obtain ⟨function, names, s, blanks, header, body, hblanks, hheader, rfl⟩ := h
  exact (List.prefix_append _ _).trans (parameterLead_prefix_of_header hheader hblanks body)

/-- The last two changes of the edit of a component bring it in under the name that the host makes
from the names in use. -/
theorem exists_component_of_requestedEdit
    (haction : Variant.ofActionName? request.actionName = some (origin, .component))
    (h : Yields (requestedEdit host tree request) s (some info) s') :
    ∃ used name s₁ s₂ file leading call function arguments,
      tree.usedNames = .ok used ∧
      reply (host.freshName componentBaseName used) s₁ = (name, s₂) ∧
      info.edits = [⟨file, leading ++ [call, function]⟩] ∧
      call.newText = elementText name arguments ∧
      DeclaredBy host request.layout name function.newText := by
  obtain ⟨origin', variant, haction', h⟩ := yields_requestedEdit.mp h
  rw [haction, Option.some.injEq, Prod.mk.injEq] at haction'
  obtain ⟨rfl, rfl⟩ := haction'
  obtain ⟨answer, file, files, script, s₁, -, -, -, h⟩ := yields_variantEdit.mp h
  rw [if_pos rfl] at h
  obtain ⟨used, name, header, arguments, renameAt, s₂, hused, hname, hheader, -, -, rfl⟩ :=
    yields_componentEdit.mp h
  obtain ⟨function, names, printed, s₃, -, -, hwrite, hopen⟩ := yields_headerOfComponent.mp hheader
  refine ⟨used, name, s₁, s₂, _, _, _, _, arguments, hused, hname, rfl, rfl, function, names, s₃, _,
    header, _, List.all_takeWhile, ?_, rfl⟩
  rw [hwrite]
  exact hopen

end Component

/-- **New names are new.** If no more than ten thousand names are taken, the name that is made from
a base is the first of those that are tried that is not taken. So if the identifiers of a file have
no more texts than that, an edit for a component, which puts an element of its name for the call and
declares it where the function was, has given it a name that is the text of none of them. -/
theorem freshName_unused :
    (∀ (base : String) (taken : String → Bool), {name | taken name = true}.encard ≤ 10000 →
      IsFirstFree (taken · = true) base (freshName taken base)) ∧
    ∀ {σ : Type} (host : Host (StateM σ)) (tree : Tree) (request : Request) (s s' : σ)
      (info : EditInfo) (origin : String),
      (∀ base names s, reply (host.freshName base names) s =
        (freshName (names.contains ·) base, s)) →
      Variant.ofActionName? request.actionName = some (origin, .component) →
      {name | tree.HasIdentifier name}.encard ≤ 10000 →
      Yields (requestedEdit host tree request) s (some info) s' →
      ∃ name file leading call function arguments,
        info.edits = [⟨file, leading ++ [call, function]⟩] ∧
        call.newText = elementText name arguments ∧
        DeclaredBy host request.layout name function.newText ∧
        (∀ edits, host = Host.standard edits →
          ("function " ++ name ++ "(").toList <+: trimStart function.newText.toList) ∧
        IsFirstFree tree.HasIdentifier componentBaseName name ∧ ¬tree.HasIdentifier name := by
  refine ⟨fun base taken htaken => freshName_isFirstFree htaken base, ?_⟩
  intro σ host tree request s s' info origin hfresh haction hcard h
  obtain ⟨used, name, s₁, s₂, file, leading, call, function, arguments, hused, hname, hedits, hcall,
    hfunction⟩ := exists_component_of_requestedEdit haction h
  have hnames : ∀ name, used.contains name = true ↔ tree.HasIdentifier name := fun name =>
    List.contains_iff_mem.trans (Tree.mem_usedNames_iff hused)
  have htaken : {name | used.contains name = true} = {name | tree.HasIdentifier name} :=
    Set.ext hnames
  have hname' : freshName (used.contains ·) componentBaseName = name := by
    have hreply := hfresh componentBaseName used s₁
    rw [hname] at hreply
    exact (congrArg Prod.fst hreply).symm
  have hfirst := freshName_isFirstFree (htaken ▸ hcard) componentBaseName
  simp only [hnames, hname'] at hfirst
  refine ⟨name, file, leading, call, function, arguments, hedits, hcall, hfunction, ?_, hfirst, ?_⟩
  · rintro edits rfl
    exact hfunction.isPrefix
  · obtain ⟨n, -, hfree, -⟩ := hfirst
    exact hfree

/-- The file of the sum with a call behind it of something that has the name for components. -/
def calledTree : Tree :=
  build "const sum = 1 + 2;\nExtractedComponent(sum);\n"
    [.token .identifier 5 9, .node .variableStatement 0 18 [⟨0⟩], .token .identifier 18 37,
      .token .identifier 38 41, .node .callExpression 18 42 [⟨2⟩, ⟨3⟩],
      .node .expressionStatement 18 43 [⟨4⟩], .file [⟨1⟩, ⟨5⟩]]

/-- The edit that turns the sum into a component there. -/
def calledElement : Script :=
  ⟨[], ⟨⟨12, 5⟩, "<ExtractedComponent_1 />"⟩, ⟨⟨19, 0⟩,
    "\nfunction ExtractedComponent_1(\x7b\x7d: \x7b\x7d) \x7b\n    return 1 + 2;\n\x7d\n"⟩⟩

theorem hasIdentifier_called {name : String} :
    calledTree.HasIdentifier name ↔ name ∈ ["sum", "ExtractedComponent", "sum"] := by
  have hused : calledTree.usedNames = .ok ["sum", "ExtractedComponent", "sum"] := by decide +kernel
  exact (Tree.mem_usedNames_iff hused).symm

theorem encard_mem_le {names : List String} (h : names.length ≤ maxNameAttempts) :
    {name | name ∈ names}.encard ≤ maxNameAttempts := by
  rw [← List.coe_toFinset, Set.encard_coe_eq_coe_finsetCard]
  exact Nat.cast_le.mpr (names.toFinset_card_le.trans h)

theorem isFirstFree_called :
    IsFirstFree calledTree.HasIdentifier componentBaseName "ExtractedComponent_1" := by
  refine ⟨1, by decide, by rw [hasIdentifier_called]; decide, fun earlier hlt => ?_⟩
  obtain rfl := Nat.lt_one_iff.mp hlt
  exact hasIdentifier_called.mpr (by decide)

theorem freshName_unused_called :
    IsFirstFree (["a", "a_1"].contains · = true) "a" "a_2" ∧
    ∃ name file leading call function arguments,
      (sumEdit .component calledElement 13).edits = [⟨file, leading ++ [call, function]⟩] ∧
      call.newText = elementText name arguments ∧
      ("function " ++ name ++ "(").toList <+: trimStart function.newText.toList ∧
      name = "ExtractedComponent_1" ∧ ¬calledTree.HasIdentifier name := by
  obtain ⟨hname, hcomponent⟩ := freshName_unused
  constructor
  · have htwo : {name | ["a", "a_1"].contains name = true}.encard ≤ 10000 := by
      simp only [List.contains_iff_mem]
      exact encard_mem_le (by decide)
    exact hname "a" (["a", "a_1"].contains ·) htwo
  · have hthree : {name | calledTree.HasIdentifier name}.encard ≤ 10000 := by
      simp only [hasIdentifier_called]
      exact encard_mem_le (by decide)
    have hyields : Yields (requestedEdit (sumHost [] "newFunction()" sumFunction) calledTree
        (sumRequest .component)) () (some (sumEdit .component calledElement 13)) () := by
      decide +kernel
    have haction : Variant.ofActionName? (sumRequest .component).actionName =
        some ("function_scope_0", .component) := by decide +kernel
    obtain ⟨name, file, leading, call, function, arguments, hedits, hcall, -, hdeclared, hfirst,
      hfree⟩ := hcomponent _ _ _ _ _ _ _ (fun _ _ _ => rfl) haction hthree hyields
    exact ⟨name, file, leading, call, function, arguments, hedits, hcall, hdeclared _ rfl,
      hfirst.unique isFirstFree_called, hfree⟩

end Assist.Extraction
