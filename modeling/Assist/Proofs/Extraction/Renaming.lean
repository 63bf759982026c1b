import Assist.Proofs.Changes.Landing
import Assist.Proofs.Extraction.Conservation

/-!
# Where the new name is asked for

An extraction says at which offset of the edited file the editor asks for a new name. That offset is
not read off the edited file: for a component it is one past the start of the call, and for an arrow
function it is added up along the list of changes, as if they came in the order of their places. So
it points at the name only as long as the changes that really move the name are the ones that were
counted. `renameDrift` is the difference, and `name_standsAt_renameAt` says that the name stands
exactly so many bytes behind the offset.

An arrow function whose call is found by its text is never off. A component is off by all that the
leading changes add, and an arrow function whose call is not found is off by what the leading
changes behind it add. Both happen: `renameAt_misses_name` has a file for each.
-/

namespace Assist.Extraction

open Assist.Text Assist.Signature Assist.Syntax

/-! ## Mentions of a name -/

/-- Whether the new text of a change has a name where names are looked for. -/
def Change.mentions (name : List Char) (change : Change) : Bool :=
  (mentionAt? change.newText.toList name).isSome

/-- A name stands where it is found. -/
theorem standsAt_of_mentionAt? {text name : List Char} {index : Nat}
    (h : mentionAt? text name = some index) : StandsAt name index text := by
  unfold mentionAt? at h
  split at h
  · exact absurd h (by simp)
  · split at h
    · rename_i hstart
      obtain ⟨rest, hrest⟩ := Option.isSome_iff_exists.mp hstart
      rw [stripStart?_eq_some_iff] at hrest
      cases h
      exact ⟨[], rest, by simp [hrest], rfl⟩
    · obtain ⟨⟨before, found⟩, hfound, rfl⟩ := Option.map_eq_some_iff.mp h
      obtain ⟨lead, hlead, hsplit⟩ := List.exists_of_findSome?_eq_some hfound
      obtain ⟨htext, rest, rfl⟩ := splitAtFirst?_eq_append hsplit
      -- each of the characters that a name is looked for after is one byte long
      have hbyte : lead.utf8Size = 1 := by
        simp only [nameLeads, List.mem_cons, List.not_mem_nil, or_false] at hlead
        rcases hlead with rfl | rfl | rfl <;> decide
      exact ⟨before ++ [lead], rest, by simp [htext], by simp [hbyte]⟩

/-- If the last mention is preferred, the offset found is that of the last change that mentions the
name, moved by what the changes listed before it add. -/
theorem locateFrom?_preferLast {name : List Char} {changes : List Change} {delta : Int}
    {last : Option Offset} {offset : Offset}
    (h : locateFrom? name true delta last changes = some offset) :
    (last = some offset ∧ ∀ c ∈ changes, c.mentions name = false) ∨
      ∃ earlier change later index, changes = earlier ++ change :: later ∧
        mentionAt? change.newText.toList name = some index ∧
        (∀ c ∈ later, c.mentions name = false) ∧
        (offset.toNat : Int) = change.start + (delta + growthOf earlier) + index := by
  induction changes generalizing delta last with
  | nil => exact Or.inl ⟨h, by simp⟩
  | cons change changes ih =>
    rw [locateFrom?] at h
    cases hmention : mentionAt? change.newText.toList name with
    | none =>
      simp only [hmention] at h
      rcases ih h with ⟨hlast, hnone⟩ | ⟨earlier, found, later, index, rfl, hindex, hlater, hoffset⟩
      · refine Or.inl ⟨hlast, ?_⟩
        intro c hc
        rcases List.mem_cons.mp hc with rfl | hc
        · simp [Change.mentions, hmention]
        · exact hnone c hc
      · refine Or.inr ⟨change :: earlier, found, later, index, rfl, hindex, hlater, ?_⟩
        rw [hoffset, growthOf_cons]
        omega
    | some index =>
      simp only [hmention, if_true] at h
      split at h
      · rename_i hrange
        rcases ih h with ⟨hlast, hnone⟩ | ⟨earlier, found, later, i, rfl, hindex, hlater, hoffset⟩
        · -- no later change mentions the name, so this one is the last
          refine Or.inr ⟨[], change, changes, index, rfl, hmention, hnone, ?_⟩
          rw [Option.some.injEq] at hlast
          have hlt : (↑change.span.start.toNat + delta + ↑index).toNat < UInt32.size := by
            simp only [maxOffset] at hrange
            simp only [UInt32.size]
            omega
          rw [← hlast, UInt32.toNat_ofNat_of_lt' hlt, Int.toNat_of_nonneg hrange.1, growthOf_nil,
            Int.add_zero, Change.start]
        · refine Or.inr ⟨change :: earlier, found, later, i, rfl, hindex, hlater, ?_⟩
          rw [hoffset, growthOf_cons]
          omega
      · exact absurd h (by simp)

/-! ## The drift -/

/-- The name that a variant of an extraction brings into the file, if the host's function has the
given text. -/
def extractedName? (tree : Tree) (variant : Variant) (function : String) : Option (List Char) :=
  if variant = .component then
    tree.usedNames.toOption.map fun names =>
      (freshName (names.contains ·) componentBaseName).toList
  else declaredName? function.toList

/-- By how much the last mention of a name among `changes` is moved by the changes placed before it
and not by the ones listed before it. The changes of `earlier` are listed before `changes`. -/
def mentionDrift (name : List Char) (earlier : List Change) : List Change → Int
  | [] => 0
  | change :: later =>
    if later.any (Change.mentions name) then mentionDrift name (earlier ++ [change]) later
    else growthOf (placedBefore earlier change later) - growthOf earlier

/-- How many bytes behind the offset where a new name is asked for the name really stands. -/
def renameDrift (variant : Variant) (name : List Char) (script : Script) : Int :=
  if variant = .component then growthOf script.leading
  else mentionDrift name [] script.toRelocatedChanges

theorem mentionDrift_append {name : List Char} {change : Change} {later : List Change}
    (hchange : change.mentions name = true) (hlater : ∀ c ∈ later, c.mentions name = false)
    (first earlier : List Change) :
    mentionDrift name first (earlier ++ change :: later) =
      growthOf (placedBefore (first ++ earlier) change later) - growthOf (first ++ earlier) := by
  induction earlier generalizing first with
  | nil =>
    have hany : later.any (Change.mentions name) = false := by simpa using hlater
    simp [mentionDrift, hany]
  | cons e earlier ih =>
    have hany : (earlier ++ change :: later).any (Change.mentions name) = true := by
      simp [hchange]
    rw [List.cons_append, mentionDrift, if_pos hany, ih]
    simp

/-- All changes listed before the last one are placed before it if none of them starts behind it. -/
theorem placedBefore_of_le {earlier : List Change} {change : Change}
    (h : ∀ c ∈ earlier, c.start ≤ change.start) : placedBefore earlier change [] = earlier := by
  rw [placedBefore, List.filter_nil, List.append_nil, List.filter_eq_self]
  simpa using h

/-! ## The place of the name -/

/-- The name of a component stands behind the angle bracket of its element. -/
theorem standsAt_elementText (name : String) (arguments : List String) :
    StandsAt name.toList 1 (elementText name arguments).toList := by
  refine ⟨['<'], ?_⟩
  unfold elementText
  simp only [String.toList_append, String.append_assoc]
  exact ⟨_, rfl, rfl⟩

variable {σ : Type} {edits : Request → StateM σ (Option EditInfo)} {tree : Tree}
  {request : Request} {s s' : σ} {info : EditInfo} {original script : Script}
  {fileName result : String} {renameFile : Option String} {offset : Offset} {name : List Char}

/-- The name of a component stands behind the offset by what the leading changes add. -/
theorem component_name_place
    (h : Yields (componentEdit (Host.standard edits) tree request original fileName renameFile)
      s info s')
    (hname : extractedName? tree .component original.body.newText = some name)
    (hinfo : info.edits = [⟨fileName, script.toChanges⟩]) (hat : info.renameAt = some offset)
    (happly : applyChanges? tree.source script.toChanges = some result)
    (hleading : ∀ c ∈ script.leading, c.start ≤ script.callSite.start)
    (hbody : script.callSite.stop ≤ script.body.start) :
    ∃ place : Nat, StandsAt name place result.toList ∧
      (place : Int) = offset.toNat + growthOf script.leading := by
  obtain ⟨names, fresh, header, arguments, renameAt, s₁, hnames, hfresh, -, -, hstop, rfl⟩ :=
    yields_componentEdit.mp h
  -- the name is the one that the host made
  have hnameEq : name = fresh.toList := by
    have hfreshName : freshName (names.contains ·) componentBaseName = fresh :=
      congrArg Prod.fst hfresh
    rw [← hfreshName]
    simpa [extractedName?, hnames, Except.toOption, eq_comm] using hname
  -- the call is the element, at the place of the host's call
  simp only [List.cons.injEq, FileChanges.mk.injEq, true_and, and_true, Script.toChanges] at hinfo
  obtain ⟨-, hlast⟩ := List.append_inj' hinfo rfl
  obtain ⟨hcall, -⟩ := List.cons.inj hlast
  have hstart : (offset.toNat : Int) = script.callSite.start + 1 := by
    have hoffset : renameAt = offset := Option.some.inj hat
    have hone := (@Change.stop?_eq_some_iff ⟨⟨_, 1⟩, ""⟩ _).mp hstop
    rw [← hcall, ← hoffset, hone.2]
    rfl
  have hpiece : StandsAt name 1 script.callSite.newText.toList := by
    rw [← hcall, hnameEq]
    exact standsAt_elementText fresh arguments
  obtain ⟨place, hplace, hat'⟩ := standsAt_of_applyChanges? happly hpiece
  refine ⟨place, hplace, ?_⟩
  have hbefore : placedBefore script.leading script.callSite [script.body] = script.leading := by
    have hle := script.callSite.start_le_stop
    rw [placedBefore, List.filter_eq_self.mpr (by simpa using hleading),
      List.filter_eq_nil_iff.mpr (by simp; omega), List.append_nil]
  rw [hat', hbefore, hstart]
  omega

/-- The name of an arrow function stands behind the offset by the drift of its last mention. -/
theorem arrow_name_place {variant : Variant}
    (h : Yields (arrowEdit (Host.standard edits) tree request variant original fileName renameFile)
      s info s')
    (hname : declaredName? original.body.newText.toList = some name)
    (hinfo : info.edits = [⟨fileName, script.toRelocatedChanges⟩])
    (hat : info.renameAt = some offset)
    (happly : applyChanges? tree.source script.toRelocatedChanges = some result) :
    ∃ place : Nat, StandsAt name place result.toList ∧
      (place : Int) = offset.toNat + mentionDrift name [] script.toRelocatedChanges := by
  obtain ⟨declared, arrow, moved, s₁, renameAt, hdeclared, -, -, hlocate, rfl⟩ :=
    yields_arrowEdit.mp h
  rw [hname, Option.some.injEq] at hdeclared
  subst hdeclared
  simp only [List.cons.injEq, FileChanges.mk.injEq, true_and, and_true] at hinfo
  -- the host looks for the name in the changes of the edit
  have hfound : locateFrom? name true 0 none script.toRelocatedChanges = some offset := by
    have hreply : locateName? [⟨fileName, moved.toRelocatedChanges⟩] fileName (String.ofList name)
        true = renameAt := congrArg Prod.fst hlocate
    rw [show renameAt = some offset from hat, hinfo] at hreply
    simpa [locateName?] using hreply
  rcases locateFrom?_preferLast hfound with
    ⟨hlast, -⟩ | ⟨earlier, change, later, index, hchanges, hindex, hlater, hoffset⟩
  · exact absurd hlast (by simp)
  · rw [hchanges] at happly ⊢
    obtain ⟨place, hplace, hat'⟩ := standsAt_of_applyChanges? happly (standsAt_of_mentionAt? hindex)
    have hmentions : change.mentions name = true := by simp [Change.mentions, hindex]
    refine ⟨place, hplace, ?_⟩
    rw [mentionDrift_append hmentions hlater, hat', hoffset]
    simp only [List.nil_append]
    omega

/-- A mention in the call does not drift if all other changes start no later than the call. -/
theorem mentionDrift_eq_zero (hcall : script.callSite.mentions name = true)
    (hleading : ∀ c ∈ script.leading, c.start ≤ script.callSite.start)
    (hbody : script.body.start ≤ script.callSite.start) :
    mentionDrift name [] script.toRelocatedChanges = 0 := by
  have hsplit : script.toRelocatedChanges = (script.leading ++ [script.body]) ++
      script.callSite :: [] := by simp [Script.toRelocatedChanges]
  have hbefore : ∀ c ∈ script.leading ++ [script.body], c.start ≤ script.callSite.start := by
    intro c hc
    rcases List.mem_append.mp hc with hc | hc
    · exact hleading c hc
    · rw [List.mem_singleton.mp hc]
      exact hbody
  rw [hsplit, mentionDrift_append hcall (by simp), List.nil_append, placedBefore_of_le hbefore]
  omega

/-- If only the function mentions the name, the drift is what the leading changes behind the
function were wrongly counted for. -/
theorem mentionDrift_of_body (hcall : script.callSite.mentions name = false)
    (hfunction : script.body.mentions name = true)
    (hbody : script.body.start ≤ script.callSite.start) :
    mentionDrift name [] script.toRelocatedChanges =
      -growthOf (script.leading.filter fun c => script.body.start < c.start) := by
  have hlater : ∀ c ∈ [script.callSite], c.mentions name = false := by simpa using hcall
  have hafter : [script.callSite].filter (fun c => c.start < script.body.start) = [] := by
    simpa using hbody
  have hrest : (fun c : Change => !decide (c.start ≤ script.body.start)) =
      fun c => decide (script.body.start < c.start) := by
    funext c
    rw [← decide_not, decide_eq_decide]
    exact Nat.not_le
  rw [Script.toRelocatedChanges, mentionDrift_append hfunction hlater, List.nil_append,
    placedBefore, hafter, List.append_nil]
  have hsum := growthOf_filter_add (fun c => decide (c.start ≤ script.body.start)) script.leading
  rw [hrest] at hsum
  omega

/-- **The place of the new name.** In the edited file the name of what was extracted stands
`renameDrift` bytes behind the offset where a new name is asked for, so it stands at the offset if
there is no drift. A component drifts by what the leading changes add. An arrow function does not
drift if its call mentions the name, and if only the function does, it drifts by what the leading
changes behind it take away. -/
theorem name_standsAt_renameAt {variant : Variant} {answer : EditInfo} {file : FileChanges}
    (h : Yields (requestedEdit (Host.standard edits) tree request) s (some info) s')
    (hhost : HostEdit edits request s variant answer file original)
    (hname : extractedName? tree variant original.body.newText = some name)
    (hinfo : info.edits = [⟨file.fileName, script.arranged variant⟩])
    (hat : info.renameAt = some offset)
    (happly : applyChanges? tree.source (script.arranged variant) = some result)
    (hleading : ∀ c ∈ script.leading, c.start ≤ script.callSite.start)
    (hbody : if variant = .component then script.callSite.stop ≤ script.body.start
      else script.body.start ≤ script.callSite.start) :
    (∃ place : Nat, StandsAt name place result.toList ∧
        (place : Int) = offset.toNat + renameDrift variant name script) ∧
      (renameDrift variant name script = 0 → StandsAt name offset.toNat result.toList) ∧
      (variant = .component → renameDrift variant name script = growthOf script.leading) ∧
      (variant ≠ .component → script.callSite.mentions name = true →
        renameDrift variant name script = 0) ∧
      (variant ≠ .component → script.callSite.mentions name = false →
        script.body.mentions name = true → renameDrift variant name script =
          -growthOf (script.leading.filter fun c => script.body.start < c.start)) := by
  obtain ⟨variant', answer', file', original', s₁, hhost', h⟩ := exists_hostEdit h
  obtain ⟨rfl, rfl, rfl, rfl⟩ := hhost.unique hhost'
  have hplace : ∃ place : Nat, StandsAt name place result.toList ∧
      (place : Int) = offset.toNat + renameDrift variant name script := by
    by_cases hcomponent : variant = .component
    · subst hcomponent
      exact component_name_place h hname hinfo hat happly hleading hbody
    · simp only [Script.arranged, extractedName?, renameDrift, if_neg hcomponent] at *
      exact arrow_name_place h hname hinfo hat happly
  refine ⟨hplace, ?_, ?_, ?_, ?_⟩
  · intro hdrift
    obtain ⟨place, hstands, hoffset⟩ := hplace
    rw [hdrift, Int.add_zero, Int.natCast_inj] at hoffset
    rw [← hoffset]
    exact hstands
  · intro hcomponent
    rw [renameDrift, if_pos hcomponent]
  · intro hcomponent hcall
    rw [if_neg hcomponent] at hbody
    rw [renameDrift, if_neg hcomponent]
    exact mentionDrift_eq_zero hcall hleading hbody
  · intro hcomponent hcall hfunction
    rw [if_neg hcomponent] at hbody
    rw [renameDrift, if_neg hcomponent]
    exact mentionDrift_of_body hcall hfunction hbody

/-- The file of the sample with the arrow function. -/
def sumArrowResult : String :=
  "import \"./log\";\n\nconst newFunction = () => \x7b\n    return 1 + 2;\n\x7d\n" ++
    "const sum = newFunction();\n"

theorem name_standsAt_renameAt_sum :
    StandsAt "newFunction".toList 77 sumArrowResult.toList := by
  have h : Yields (requestedEdit (sumHost [sumImport] "newFunction()" sumFunction) sumTree
      (sumRequest .arrow)) () (some (sumEdit .arrow sumArrow 77)) () := by decide +kernel
  have hhost := hostEdit_sum .arrow [sumImport] "newFunction()" sumFunction
  have happly : applyChanges? sumTree.source (sumArrow.arranged .arrow) = some sumArrowResult := by
    rw [applyChanges?, sortChanges_eq_foldr]
    decide +kernel
  exact (name_standsAt_renameAt h hhost (by decide +kernel) rfl rfl happly (by decide +kernel)
    (by decide +kernel)).2.1 (by decide +kernel)

/-- The file of the sample with the component. -/
def sumElementResult : String :=
  "import \"./log\";\nconst sum = <ExtractedComponent />;\n\n" ++
    "function ExtractedComponent(\x7b\x7d: \x7b\x7d) \x7b\n    return 1 + 2;\n\x7d\n"

/-- The changes of an arrow function whose call is put into parentheses while the constant gets
another name. -/
def sumTotal : Script :=
  ⟨[⟨⟨6, 3⟩, "total"⟩], ⟨⟨12, 5⟩, "(newFunction())"⟩, sumArrow.body⟩

/-- The file of the sample with that arrow function. -/
def sumTotalResult : String :=
  "\nconst newFunction = () => \x7b\n    return 1 + 2;\n\x7d\nconst total = (newFunction());\n"

theorem renameAt_misses_name :
    (Yields (requestedEdit (sumHost [sumImport] "newFunction()" sumFunction) sumTree
        (sumRequest .component)) () (some (sumEdit .component sumElement 13)) () ∧
      applyChanges? sumTree.source sumElement.toChanges = some sumElementResult ∧
      (∀ c ∈ sumElement.leading, c.start ≤ sumElement.callSite.start) ∧
      sumElement.callSite.stop ≤ sumElement.body.start ∧
      ¬ StandsAt "ExtractedComponent".toList 13 sumElementResult.toList ∧
      StandsAt "ExtractedComponent".toList 29 sumElementResult.toList) ∧
    Yields (requestedEdit (sumHost sumTotal.leading "(newFunction())" sumFunction) sumTree
        (sumRequest .arrow)) () (some (sumEdit .arrow sumTotal 9)) () ∧
      applyChanges? sumTree.source sumTotal.toRelocatedChanges = some sumTotalResult ∧
      (∀ c ∈ sumTotal.leading, c.start ≤ sumTotal.callSite.start) ∧
      sumTotal.body.start ≤ sumTotal.callSite.start ∧
      ¬ StandsAt "newFunction".toList 9 sumTotalResult.toList ∧
      StandsAt "newFunction".toList 7 sumTotalResult.toList := by
  refine ⟨⟨?_, ?_, ?_⟩, ?_, ?_, ?_⟩
  · decide +kernel
  · rw [applyChanges?, sortChanges_eq_foldr]
    decide +kernel
  · decide +kernel
  · decide +kernel
  · rw [applyChanges?, sortChanges_eq_foldr]
    decide +kernel
  · decide +kernel

end Assist.Extraction
