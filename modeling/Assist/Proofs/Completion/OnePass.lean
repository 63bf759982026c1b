import Assist.Completion.ObjectLiteral
import Assist.Types.Table
import Mathlib.Data.List.Basic

/-!
# Completing an object literal in one pass

The list of a completion is made property by property: each one looks for its plain entry in the
list that the properties before it have left, and puts an entry with a value beside it. Here the
result is compared with one pass over the entries of the host, `expandEach`, which expands the first
plain entry of each name by the value that is offered for the name. The two agree as long as no two
properties share a name (`extend_eq_expandEach`).

The new entries have names of their own properties only, so two passes for different names do not
see each other (`expandEach_expandEach`). The rest is one step, `complete_eq_expandEach`, and an
induction on the properties.
-/

namespace Assist.Completion

open Assist.Syntax Assist.Types

/-! ## The pass -/

/-- The entries that stand for an entry once the value offered for it, if any, is placed. The new
entry inserts the name and the value behind it as a snippet, shows the preview of the value as its
detail, and is the old one in everything else. -/
def Entry.expand (placement : Placement) (entry : Entry) : Option Snippet → List Entry
  | none => [entry]
  | some snippet =>
    let value : Entry :=
      { entry with
        insertText := some (entry.name ++ snippet.insert)
        isSnippet := true
        labelDetails := some { detail := some snippet.preview, description := none } }
    match placement with
    | .above => [value, entry]
    | .below => [entry, value]
    | .remove => [value]

/-- Every entry expanded in place. A value is offered for the first entry of a name that does not
insert a method; `seen` holds the names of such entries before the list. -/
def expandEach (placement : Placement) (offer : String → Option Snippet) (seen : List String) :
    List Entry → List Entry
  | [] => []
  | entry :: entries =>
    if entry.isMethodSnippet then entry :: expandEach placement offer seen entries
    else entry.expand placement (if entry.name ∈ seen then none else offer entry.name)
      ++ expandEach placement offer (entry.name :: seen) entries

/-- The value offered for a property: its type is known at the node, is not a function, and has a
value. -/
def Request.valueFor? (r : Request) (node : NodeId) (property : Property) : Option Snippet :=
  match r.oracle.propertyTypeAt property node with
  | none => none
  | some type =>
    if r.oracle.isFunction type then none
    else match snippetFor? r.tree r.preferences r.settings (r.oracle.shape type) with
      | .ok snippet? => snippet?
      | .error _ => none

/-- The value offered for a name by the property of that name. -/
def Request.offer? (r : Request) (node : NodeId) (properties : List Property) (name : String) :
    Option Snippet :=
  (properties.find? fun property => property.name == name).bind (r.valueFor? node)

section Pass

variable {placement : Placement} {offer first second : String → Option Snippet}

/-- Only the names that a value is offered for need to be remembered. -/
theorem expandEach_congr_seen {seen seen' : List String} (entries : List Entry)
    (h : ∀ name, offer name ≠ none → (name ∈ seen ↔ name ∈ seen')) :
    expandEach placement offer seen entries = expandEach placement offer seen' entries := by
  induction entries generalizing seen seen' with
  | nil => rfl
  | cons entry entries ih =>
    have hvalue : (if entry.name ∈ seen then none else offer entry.name) =
        if entry.name ∈ seen' then none else offer entry.name := by
      by_cases hnone : offer entry.name = none
      · simp [hnone]
      · simp only [h entry.name hnone]
    have hcons : ∀ name, offer name ≠ none →
        (name ∈ entry.name :: seen ↔ name ∈ entry.name :: seen') := by
      intro name hname
      rw [List.mem_cons, List.mem_cons, h name hname]
    rw [expandEach, expandEach, ih h, ih hcons, hvalue]

theorem expandEach_forget {name : String} (seen : List String) (entries : List Entry)
    (h : offer name = none) :
    expandEach placement offer (name :: seen) entries =
      expandEach placement offer seen entries := by
  refine expandEach_congr_seen entries fun other hother => ?_
  have hne : other ≠ name := by
    rintro rfl
    exact hother h
  simp [hne]

/-- An entry that no value is offered for stays and is not remembered. -/
theorem expandEach_cons_of_none {entry : Entry} (seen : List String) (entries : List Entry)
    (h : offer entry.name = none) :
    expandEach placement offer seen (entry :: entries) =
      entry :: expandEach placement offer seen entries := by
  rw [expandEach, expandEach_forget seen entries h, h, ite_self]
  exact ite_self _

/-- So do several such entries. -/
theorem expandEach_append_of_none {front : List Entry} (seen : List String) (entries : List Entry)
    (h : ∀ entry ∈ front, offer entry.name = none) :
    expandEach placement offer seen (front ++ entries) =
      front ++ expandEach placement offer seen entries := by
  induction front with
  | nil => rfl
  | cons entry front ih =>
    rw [List.forall_mem_cons] at h
    rw [List.cons_append, expandEach_cons_of_none _ _ h.1, ih h.2, List.cons_append]

/-- The entries that stand for an entry have its name. -/
theorem Entry.name_of_mem_expand {entry expanded : Entry} {snippet? : Option Snippet}
    (h : expanded ∈ entry.expand placement snippet?) : expanded.name = entry.name := by
  cases snippet? with
  | none =>
    rw [List.mem_singleton.mp h]
  | some snippet =>
    cases placement with
    | above => obtain rfl | rfl := List.mem_pair.mp h <;> rfl
    | below => obtain rfl | rfl := List.mem_pair.mp h <;> rfl
    | remove =>
      obtain rfl := List.mem_singleton.mp h
      rfl

/-- Nothing changes if every name that a value is offered for was seen before. -/
theorem expandEach_of_seen {seen : List String} (entries : List Entry)
    (h : ∀ name, offer name ≠ none → name ∈ seen) :
    expandEach placement offer seen entries = entries := by
  induction entries generalizing seen with
  | nil => rfl
  | cons entry entries ih =>
    have hvalue : (if entry.name ∈ seen then none else offer entry.name) = none := by
      split
      · rfl
      · rename_i hseen
        by_contra hne
        exact hseen (h entry.name hne)
    have hcons : ∀ name, offer name ≠ none → name ∈ entry.name :: seen := fun name hname =>
      List.mem_cons_of_mem _ (h name hname)
    rw [expandEach, ih h, ih hcons, hvalue]
    exact ite_self _

/-- **Two passes are one.** If no name is offered a value by both, the second pass leaves the
entries of the first alone. -/
theorem expandEach_expandEach (hdisjoint : ∀ name, first name = none ∨ second name = none)
    (seen : List String) (entries : List Entry) :
    expandEach placement second seen (expandEach placement first seen entries) =
      expandEach placement (fun name => (first name).or (second name)) seen entries := by
  induction entries generalizing seen with
  | nil => rfl
  | cons entry entries ih =>
    by_cases hmethod : entry.isMethodSnippet = true
    · simp only [expandEach, hmethod, if_true, ih]
    · have hplain : ∀ (offer : String → Option Snippet) (seen : List String) (rest : List Entry),
          expandEach placement offer seen (entry :: rest) =
            entry.expand placement (if entry.name ∈ seen then none else offer entry.name)
              ++ expandEach placement offer (entry.name :: seen) rest := fun offer seen rest => by
        rw [expandEach, if_neg hmethod]
      rw [hplain first, hplain fun name => (first name).or (second name)]
      by_cases hseen : entry.name ∈ seen
      · simp only [if_pos hseen, Entry.expand, List.cons_append, List.nil_append, hplain second, ih]
      · rw [if_neg hseen, if_neg hseen]
        cases hfirst : first entry.name with
        | none =>
          simp only [Entry.expand, List.cons_append, List.nil_append, hplain second, if_neg hseen,
            ih, Option.none_or]
        | some snippet =>
          -- the new entries have the name of `entry`, which the second pass has no value for
          have hsecond : second entry.name = none := by
            rcases hdisjoint entry.name with h | h
            · rw [hfirst] at h
              exact absurd h (by simp)
            · exact h
          rw [Option.some_or, ← ih, expandEach_forget _ _ hsecond]
          refine expandEach_append_of_none seen _ fun expanded hexpanded => ?_
          rw [Entry.name_of_mem_expand hexpanded, hsecond]

/-- A pass that offers a value for one name places it at the plain entry of that name. -/
theorem expandEach_single (placement : Placement) (name : String) (snippet : Snippet)
    (entries : List Entry) :
    expandEach placement (fun other => if name == other then some snippet else none) [] entries =
      match plainIndex? entries name with
      | some index => placeValue placement entries index snippet
      | none => entries := by
  induction entries with
  | nil => rfl
  | cons entry entries ih =>
    by_cases hfound : (entry.name == name && !entry.isMethodSnippet) = true
    · -- the entry itself; behind it the name was seen
      have hindex : plainIndex? (entry :: entries) name = some 0 := by
        rw [plainIndex?, List.findIdx?_cons, if_pos hfound]
      rw [Bool.and_eq_true, beq_iff_eq, Bool.not_eq_true'] at hfound
      obtain ⟨hname, hplain⟩ := hfound
      have hrest : expandEach placement (fun other => if name == other then some snippet else none)
          [entry.name] entries = entries := by
        refine expandEach_of_seen entries fun other hother => ?_
        have heq : name = other := by
          by_contra hne
          exact hother (if_neg (by simpa using hne))
        rw [hname, heq]
        exact List.mem_singleton_self other
      rw [expandEach, hplain, if_neg Bool.false_ne_true, hrest, hindex, hname]
      simp only [List.not_mem_nil, if_false, beq_self_eq_true, if_true]
      cases placement <;> rfl
    · have hskip : expandEach placement (fun other => if name == other then some snippet else none)
          [] (entry :: entries) = entry :: expandEach placement
            (fun other => if name == other then some snippet else none) [] entries := by
        by_cases hmethod : entry.isMethodSnippet = true
        · rw [expandEach, if_pos hmethod]
        · refine expandEach_cons_of_none [] entries (if_neg ?_)
          intro heq
          rw [beq_iff_eq] at heq
          exact hfound (by simp [heq, hmethod])
      have hindex : plainIndex? (entry :: entries) name =
          (plainIndex? entries name).map (· + 1) := by
        rw [plainIndex?, List.findIdx?_cons, if_neg hfound]
        rfl
      rw [hskip, ih, hindex]
      cases plainIndex? entries name with
      | none => rfl
      | some index =>
        show entry :: placeValue placement entries index snippet =
          placeValue placement (entry :: entries) (index + 1) snippet
        unfold placeValue
        rw [List.getElem?_cons_succ]
        cases entries[index]? with
        | none => rfl
        | some found => cases placement <;> rfl

end Pass

/-! ## The properties one after the other -/

variable {r : Request} {node : NodeId} {entries out : List Entry}

theorem offer?_cons (property : Property) (properties : List Property) (name : String) :
    r.offer? node (property :: properties) name =
      if property.name == name then r.valueFor? node property
      else r.offer? node properties name := by
  unfold Request.offer?
  rw [List.find?_cons]
  cases property.name == name <;> rfl

/-- Completing one property places its value, if there is one, at its plain entry. -/
theorem complete_eq_placeValue (hmethods : r.preferences.methodSnippets = false)
    (hvalues : r.settings.offerValues = true) {property : Property}
    (h : r.complete node entries property = .ok out) :
    out = match plainIndex? entries property.name, r.valueFor? node property with
      | some index, some snippet => placeValue r.settings.placement entries index snippet
      | _, _ => entries := by
  unfold Request.complete at h
  unfold Request.valueFor?
  cases hindex : plainIndex? entries property.name with
  | none =>
    simp only [hindex, Except.ok.injEq] at h
    exact h.symm
  | some index =>
    cases htype : r.oracle.propertyTypeAt property node with
    | none =>
      simp only [hindex, htype, Except.ok.injEq] at h
      exact h.symm
    | some type =>
      simp only [hindex, htype] at h
      by_cases hfunction : r.oracle.isFunction type = true
      · simp only [hfunction, if_true, hmethods, Bool.false_eq_true, if_false,
          Except.ok.injEq] at h ⊢
        exact h.symm
      · simp only [hfunction, if_false, hvalues, if_true, Bool.false_eq_true] at h ⊢
        cases hsnippet : snippetFor? r.tree r.preferences r.settings (r.oracle.shape type) with
        | error fault => simp [hsnippet, bind, Except.bind] at h
        | ok snippet? =>
          cases snippet? with
          | none => simpa [hsnippet, bind, Except.bind, pure, Except.pure, eq_comm] using h
          | some snippet => simpa [hsnippet, bind, Except.bind, pure, Except.pure, eq_comm] using h

/-- **One step.** Completing one property is a pass that offers its value for its name. -/
theorem complete_eq_expandEach (hmethods : r.preferences.methodSnippets = false)
    (hvalues : r.settings.offerValues = true) {property : Property}
    (h : r.complete node entries property = .ok out) :
    out = expandEach r.settings.placement (r.offer? node [property]) [] entries := by
  have hoffer : r.offer? node [property] = fun name =>
      if property.name == name then r.valueFor? node property else none := by
    funext name
    exact offer?_cons property [] name
  rw [complete_eq_placeValue hmethods hvalues h, hoffer]
  cases r.valueFor? node property with
  | none =>
    have hnone : ∀ name, (if property.name == name then none else none : Option Snippet) = none :=
      fun name => ite_self _
    rw [expandEach_of_seen entries fun name hname => absurd (hnone name) hname]
    cases plainIndex? entries property.name <;> rfl
  | some snippet =>
    rw [expandEach_single]
    cases plainIndex? entries property.name <;> rfl

/-- All properties, one after the other. -/
theorem foldlM_complete_eq_expandEach (hmethods : r.preferences.methodSnippets = false)
    (hvalues : r.settings.offerValues = true) {properties : List Property}
    (hdistinct : (properties.map Property.name).Nodup)
    (h : properties.foldlM (r.complete node) entries = .ok out) :
    out = expandEach r.settings.placement (r.offer? node properties) [] entries := by
  induction properties generalizing entries with
  | nil =>
    have hnone : ∀ name, r.offer? node [] name = none := fun name => rfl
    rw [expandEach_of_seen entries fun name hname => absurd (hnone name) hname]
    exact (Except.ok.inj h).symm
  | cons property properties ih =>
    rw [List.foldlM_cons] at h
    cases hstep : r.complete node entries property with
    | error fault => simp [hstep, bind, Except.bind] at h
    | ok next =>
      simp only [hstep, bind, Except.bind] at h
      rw [List.map_cons, List.nodup_cons] at hdistinct
      obtain ⟨hfresh, hdistinct⟩ := hdistinct
      -- no later property has the name of this one
      have hlater : r.offer? node properties property.name = none := by
        have hfind : properties.find? (fun other => other.name == property.name) = none := by
          rw [List.find?_eq_none]
          intro other hother heq
          exact hfresh (List.mem_map.mpr ⟨other, hother, beq_iff_eq.mp heq⟩)
        rw [Request.offer?, hfind, Option.bind_none]
      have hdisjoint : ∀ name, r.offer? node [property] name = none ∨
          r.offer? node properties name = none := by
        intro name
        by_cases hname : property.name = name
        · exact Or.inr (hname ▸ hlater)
        · exact Or.inl (by rw [offer?_cons, if_neg (by simpa using hname)]; rfl)
      have hboth : (fun name => (r.offer? node [property] name).or
          (r.offer? node properties name)) = r.offer? node (property :: properties) := by
        funext name
        rw [offer?_cons, offer?_cons]
        by_cases hname : property.name = name
        · rw [if_pos (by simpa using hname), if_pos (by simpa using hname), ← hname, hlater,
            Option.or_none]
        · rw [if_neg (by simpa using hname), if_neg (by simpa using hname)]
          rfl
      rw [ih hdistinct h, complete_eq_expandEach hmethods hvalues hstep,
        expandEach_expandEach hdisjoint, hboth]

/-- **Completion in one pass.** With values on and method snippets off, the completed list is the
host's list with every entry expanded in place, if the properties of the expected type have
different names. -/
theorem extend_eq_expandEach (hmethods : r.preferences.methodSnippets = false)
    (hvalues : r.settings.offerValues = true) (h : r.extend entries = .ok (some out)) :
    ∃ node expected, r.literal? = some node ∧ r.oracle.expectedType node = some expected ∧
      (((r.oracle.completableProperties expected).map Property.name).Nodup →
        out = expandEach r.settings.placement
          (r.offer? node (r.oracle.completableProperties expected)) [] entries) := by
  unfold Request.extend at h
  split at h
  · exact absurd h (by simp)
  · cases hnode : r.literal? with
    | none => simp [hnode] at h
    | some node =>
      cases hexpected : r.oracle.expectedType node with
      | none => simp [hnode, hexpected] at h
      | some expected =>
        refine ⟨node, expected, rfl, hexpected, fun hdistinct => ?_⟩
        simp only [hnode, hexpected] at h
        cases hrun : (r.oracle.completableProperties expected).foldlM (r.complete node) entries with
        | error fault => simp [hrun, bind, Except.bind] at h
        | ok result =>
          simp only [hrun, bind, Except.bind, pure, Except.pure, Except.ok.injEq,
            Option.some.injEq] at h
          rw [← h]
          exact foldlM_complete_eq_expandEach hmethods hvalues hdistinct hrun

/-! ## A sample -/

/-- A type with a string, an optional list and a method, expected at the first node. -/
def optionsTable : TypeTable :=
  let (tags, table) := TypeTable.intern (.array .string) TypeTable.initial
  let (run, table) := TypeTable.intern (.function [] .string) table
  let (options, table) := TypeTable.object
    [⟨"mood", .string, false⟩, ⟨"tags", tags, true⟩, ⟨"run", run, false⟩] table
  table.expect ⟨0⟩ options

/-- A request inside the braces of an empty object literal. -/
def optionsRequest : Request where
  tree := ((Tree.empty "set(\x7b\x7d)").addLeaf .objectLiteralExpression 4 6).addFile [⟨0⟩]
  oracle := optionsTable.oracle
  preferences := Preferences.standard
  settings := Settings.standard
  position := 5

def moodEntry : Entry := Entry.plain "mood" "property" "11"

def tagsEntry : Entry := Entry.plain "tags" "property" "11"

def runEntry : Entry := Entry.plain "run" "method" "11"

/-- An entry of the host that inserts a method and has the name of a string. -/
def moodMethod : Entry := { moodEntry with labelDetails := some ⟨some "(now)", none⟩ }

/-- The method that the host made for `run`. -/
def runMethod : Entry :=
  { Entry.plain "run" "method" "17" with
    insertText := some "run() \x7b$0\x7d", isSnippet := true
    labelDetails := some ⟨some "()", none⟩ }

/-- The entries of the host. -/
def optionsEntries : List Entry := [tagsEntry, moodMethod, moodEntry, runEntry, moodEntry]

/-- The entries with the values of the list and of the first plain string. -/
def optionsCompleted : List Entry :=
  [tagsEntry,
    { name := "tags", kind := "property", kindModifiers := none, sortText := "11"
      insertText := some "tags: [\n\t$1\n],$0", isSnippet := true
      labelDetails := some { detail := some ": [],", description := none } },
    moodMethod, moodEntry,
    { name := "mood", kind := "property", kindModifiers := none, sortText := "11"
      insertText := some "mood: \"$1\",$0", isSnippet := true
      labelDetails := some { detail := some ": \"\",", description := none } },
    runEntry, moodEntry]

theorem extend_eq_expandEach_options :
    optionsRequest.extend optionsEntries = .ok (some optionsCompleted) ∧
    optionsCompleted = expandEach .below (optionsRequest.offer? ⟨0⟩
      (optionsRequest.oracle.completableProperties ⟨15⟩)) [] optionsEntries := by
  have h : optionsRequest.extend optionsEntries = .ok (some optionsCompleted) := by decide +kernel
  obtain ⟨node, expected, hnode, hexpected, hout⟩ := extend_eq_expandEach rfl rfl h
  have hliteral : optionsRequest.literal? = some ⟨0⟩ := by decide +kernel
  rw [hliteral, Option.some.injEq] at hnode
  subst hnode
  have htype : optionsRequest.oracle.expectedType ⟨0⟩ = some ⟨15⟩ := by decide +kernel
  rw [htype, Option.some.injEq] at hexpected
  subst hexpected
  exact ⟨h, hout (by decide +kernel)⟩

end Assist.Completion
