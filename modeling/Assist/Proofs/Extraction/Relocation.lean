import Assist.Proofs.Changes.Splicing
import Assist.Proofs.Extraction.Conservation

/-!
# When the edit of an arrow function can be applied

The function of an arrow function is moved above the statement that is extracted from. The move is
refused where the function would come to stand inside the call, and nothing else is looked at: the
leading changes may replace any text. So the edit can be applied exactly if the new place is a
boundary, every leading change is apart from the function, and the function is not a replacement
that starts where the call does (`arrowEdit_applies_iff`). The last can only fail for a function
that was not moved. Leading changes do get in the way: `relocated_edit_overlaps` has one that starts
at the new place of the function and one that reaches over it, in files that the host's own changes
can be applied to.
-/

namespace Assist.Extraction

open Assist.Text Assist.Signature Assist.Syntax

/-! ## Lists that can be applied -/

theorem apart_insertion_iff {insertion call : Change} (hempty : insertion.stop = insertion.start) :
    Apart insertion call ↔ ¬ (call.start < insertion.start ∧ insertion.start < call.stop) := by
  unfold Apart
  split <;> omega

/-- Being apart depends on the order of two changes only if they start at one place. -/
theorem apart_swap_iff {a b : Change} (h : Apart a b) :
    Apart b a ↔ (b.start = a.start → b.stop = b.start) := by
  have ha := a.start_le_stop
  have hb := b.start_le_stop
  unfold Apart at h ⊢
  split at h <;> split <;> omega

theorem pairwise_apart_append_two {leading : List Change} {a b : Change} :
    (leading ++ [a, b]).Pairwise Apart ↔
      leading.Pairwise Apart ∧ (∀ c ∈ leading, Apart c a) ∧ (∀ c ∈ leading, Apart c b) ∧
        Apart a b := by
  rw [List.pairwise_append, List.pairwise_pair]
  constructor
  · rintro ⟨hleading, hab, hcross⟩
    exact ⟨hleading, fun c hc => hcross c hc a (by simp), fun c hc => hcross c hc b (by simp), hab⟩
  · rintro ⟨hleading, ha, hb, hab⟩
    refine ⟨hleading, hab, fun c hc d hd => ?_⟩
    rcases List.mem_cons.mp hd with rfl | hd
    · exact ha c hc
    · rw [List.mem_singleton.mp hd]
      exact hb c hc

/-! ## The moved function -/

variable {σ : Type} {host : Host (StateM σ)} {tree : Tree} {request : Request} {s s' : σ}
  {info : EditInfo} {script moved : Script}

/-- Moving a function leaves its edge to the call clean, but for a replacement that starts where the
call does. -/
theorem moveFunction_apart {variant : Variant}
    (h : Yields (moveFunction host tree request variant script) s moved s')
    (hapart : Apart script.callSite script.body) :
    Apart moved.body moved.callSite ↔
      (moved.body.start = moved.callSite.start → moved.body.span.isEmpty = true) := by
  rw [Change.isEmpty_iff]
  obtain rfl | ⟨start, newText, hfit, hinside, rfl⟩ := moveFunction_cases h
  · exact apart_swap_iff hapart
  · have hempty : Change.stop ⟨Span.emptyAt start, newText⟩ = start.toNat := rfl
    have houtside :
        ¬ (script.callSite.start < start.toNat ∧ start.toNat < script.callSite.stop) := by
      rw [← Change.strictlyContains_iff hfit, hinside]
      exact Bool.false_ne_true
    exact iff_of_true ((apart_insertion_iff hempty).mpr houtside) (fun _ => hempty)

/-- **When a moved function can be inserted.** If the host's own changes can be applied, then the
changes of an arrow function can be applied exactly if the function starts at a boundary, no leading
change is in its way, and it is not a replacement that starts where the call does. It can only be a
replacement if it was left where the host had it. -/
theorem arrowEdit_applies_iff {variant : Variant} {answer : EditInfo} {file : FileChanges}
    (h : Yields (requestedEdit host tree request) s (some info) s')
    (hhost : HostEdit host.edits request s variant answer file script)
    (hvariant : variant ≠ .component)
    (happlies : (applyChanges? tree.source file.textChanges).isSome = true) :
    ∃ function, info.edits = [⟨file.fileName, script.leading ++ [function, script.callSite]⟩] ∧
      (function.span = script.body.span ∨ function.span.isEmpty = true) ∧
      ((applyChanges? tree.source (script.leading ++ [function, script.callSite])).isSome = true ↔
        isBoundary function.start tree.source.toList = true ∧
          (∀ c ∈ script.leading, Apart c function) ∧
          (function.start = script.callSite.start → function.span.isEmpty = true)) := by
  obtain ⟨variant', answer', file', script', s₁, hhost', h⟩ := exists_hostEdit h
  obtain ⟨rfl, rfl, rfl, rfl⟩ := hhost.unique hhost'
  rw [if_neg hvariant] at h
  obtain ⟨name, arrow, moved, s₂, renameAt, -, -, hmove, -, rfl⟩ := yields_arrowEdit.mp h
  obtain ⟨hleading, hcallSite, hspan⟩ := moveFunction_frame hmove
  have hlist : moved.toRelocatedChanges = script.leading ++ [moved.body, script.callSite] := by
    rw [Script.toRelocatedChanges, hleading, hcallSite]
  -- what the host's own changes satisfy
  rw [hhost.changes, Script.toChanges, applyChanges?_isSome_iff, pairwise_apart_append_two]
    at happlies
  obtain ⟨hplaced, hpair, hcall, hbody, hlast⟩ := happlies
  refine ⟨moved.body, by rw [hlist], hspan, ?_⟩
  have hedge := moveFunction_apart hmove hlast
  rw [hcallSite] at hedge
  rw [applyChanges?_isSome_iff, pairwise_apart_append_two, hedge]
  constructor
  · rintro ⟨hall, -, hclear, -, hreplace⟩
    exact ⟨(hall moved.body (by simp)).2.1, hclear, hreplace⟩
  · rintro ⟨hstart, hclear, hreplace⟩
    -- the function ends where the host's function did, or where it starts
    have hfunction : moved.body.stop ≤ maxOffset ∧
        isBoundary moved.body.start tree.source.toList = true ∧
        isBoundary moved.body.stop tree.source.toList = true := by
      rcases hspan with hspan | hempty
      · have hold := hplaced script.body (by simp)
        rw [Change.stop, Change.start, hspan]
        exact hold
      · rw [Change.isEmpty_iff] at hempty
        have hlt : moved.body.start < UInt32.size := moved.body.span.start.toNat_lt_size
        rw [hempty]
        refine ⟨?_, hstart, hstart⟩
        simp only [maxOffset, UInt32.size] at hlt ⊢
        omega
    refine ⟨fun c hc => ?_, hpair, hclear, hcall, hreplace⟩
    rcases List.mem_append.mp hc with hc | hc
    · exact hplaced c (List.mem_append_left _ hc)
    · rcases List.mem_cons.mp hc with rfl | hc
      · exact hfunction
      · rw [List.mem_singleton.mp hc]
        exact hplaced script.callSite (by simp)

theorem arrowEdit_applies_sum :
    ∃ function, (sumEdit .arrow sumArrow 77).edits =
        [⟨"sum.ts", [sumImport] ++ [function, ⟨⟨12, 5⟩, "newFunction()"⟩]⟩] ∧
      (function.span = ⟨19, 0⟩ ∨ function.span.isEmpty = true) ∧
      ((applyChanges? sumTree.source
          ([sumImport] ++ [function, ⟨⟨12, 5⟩, "newFunction()"⟩])).isSome = true ↔
        isBoundary function.start sumTree.source.toList = true ∧
          (∀ c ∈ [sumImport], Apart c function) ∧
          (function.start = 12 → function.span.isEmpty = true)) := by
  have h : Yields (requestedEdit (sumHost [sumImport] "newFunction()" sumFunction) sumTree
      (sumRequest .arrow)) () (some (sumEdit .arrow sumArrow 77)) () := by decide +kernel
  have hhost := hostEdit_sum .arrow [sumImport] "newFunction()" sumFunction
  have happlies : (applyChanges? sumTree.source
      (sumScript [sumImport] "newFunction()" sumFunction).toChanges).isSome = true := by
    rw [applyChanges?, sortChanges_eq_foldr]
    decide +kernel
  exact arrowEdit_applies_iff h hhost (by decide) happlies

/-- A file of an import and a statement. -/
def importTree : Tree :=
  (((Tree.empty "import a;\nconst sum = 1 + 2;\n").addLeaf .importDeclaration 0 9).addLeaf
    .variableStatement 9 28).addFile [⟨0⟩, ⟨1⟩]

/-- The changes that extract the sum of `importTree` and put another import in the place of the
line of the first. -/
def importScript : Script :=
  ⟨[⟨⟨0, 10⟩, "import b;\n"⟩], ⟨⟨22, 5⟩, "newFunction()"⟩, ⟨⟨29, 0⟩, sumFunction⟩⟩

/-- A host that has these changes. -/
def importHost : Host (StateM Unit) :=
  Host.ofTable [("function_scope_0", ⟨[⟨"sum.ts", importScript.toChanges⟩], none, none⟩)]

/-- The changes that turn the function of `importScript` into an arrow function. It goes before the
line break that the first change replaces. -/
def importArrow : Script := { importScript with body := ⟨⟨9, 0⟩, sumArrow.body.newText⟩ }

/-- The changes of `sumArrow` with a keyword replaced at the place of the function. -/
def letArrow : Script := { sumArrow with leading := [⟨⟨0, 5⟩, "let"⟩] }

theorem relocated_edit_overlaps :
    ((applyChanges? sumTree.source
        (sumScript letArrow.leading "newFunction()" sumFunction).toChanges).isSome = true ∧
      Yields (requestedEdit (sumHost letArrow.leading "newFunction()" sumFunction) sumTree
        (sumRequest .arrow)) () (some (sumEdit .arrow letArrow 59)) () ∧
      isBoundary letArrow.body.start sumTree.source.toList = true ∧
      (applyChanges? sumTree.source (letArrow.arranged .arrow)).isNone = true) ∧
    (applyChanges? importTree.source importScript.toChanges).isSome = true ∧
      Yields (requestedEdit importHost importTree
          { sumRequest .arrow with selection := .range ⟨22, 27⟩ }) ()
        (some (sumEdit .arrow importArrow 71)) () ∧
      isBoundary importArrow.body.start importTree.source.toList = true ∧
      (applyChanges? importTree.source (importArrow.arranged .arrow)).isNone = true := by
  simp only [applyChanges?, sortChanges_eq_foldr]
  decide +kernel

end Assist.Extraction
