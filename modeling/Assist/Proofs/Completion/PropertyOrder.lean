import Assist.Proofs.Completion.OnePass
import Assist.Proofs.Completion.Placing
import Assist.Proofs.Types.Contributors
import Mathlib.Data.List.Nodup
import Mathlib.Data.List.Perm.Basic

/-!
# The order of properties does not matter

An oracle lists the properties of a type in some order, and completion takes them one after the
other. The additions for two names act on different entries, so it does not matter which comes first
(`addTo_addTo`), and of two properties that cannot be completed the fault is the same. A completed
list is therefore the same for every order of the properties (`extend_eq_of_reorders`), as long as
no two of them have one name.
-/

namespace Assist.Types.Oracle

/-! ## Oracles that list properties in different orders -/

/-- What an oracle says of types, less their properties. -/
def bare (o : Oracle) : Oracle := { o with info := fun id => { o.info id with properties := [] } }

/-- Two oracles that say the same but may list the properties of a type in different orders. -/
structure Reorders (o o' : Oracle) : Prop where
  bare : o.bare = o'.bare
  properties : ∀ id, (o.info id).properties.Perm (o'.info id).properties

section Bare

variable (o : Oracle) (id : TypeId)

theorem callableWithin_bare (depth : Nat) :
    o.bare.callableWithin depth id = o.callableWithin depth id := by
  induction depth generalizing id with
  | zero => rfl
  | succ depth ih =>
    have hrest : o.bare.callableWithin depth = o.callableWithin depth := funext ih
    rw [callableWithin, callableWithin, hrest]
    rfl

/-- A verdict that does not look at properties. -/
def IgnoresProperties (verdict : TypeInfo → Option Bool) : Prop :=
  ∀ info properties, verdict { info with properties } = verdict info

theorem allWithin_bare {verdict : TypeInfo → Option Bool} (h : IgnoresProperties verdict)
    (depth : Nat) : o.bare.allWithin verdict depth id = o.allWithin verdict depth id := by
  have hverdict : ∀ id, verdict (o.bare.info id) = verdict (o.info id) := fun id => h (o.info id) []
  induction depth generalizing id with
  | zero => rw [allWithin, allWithin, hverdict]
  | succ depth ih =>
    have hrest : o.bare.allWithin verdict depth = o.allWithin verdict depth := funext ih
    have hmembers : o.bare.definedMembers id = o.definedMembers id := rfl
    rw [allWithin, allWithin, hverdict, hrest, hmembers]

theorem isFunction_bare : o.bare.isFunction id = o.isFunction id := o.callableWithin_bare id _

theorem isPlainObject_bare : o.bare.isPlainObject id = o.isPlainObject id :=
  o.allWithin_bare id (fun _ _ => rfl) _

theorem shape_bare : o.bare.shape id = o.shape id := by
  have hstring : o.bare.isString id = o.isString id := o.allWithin_bare id (fun _ _ => rfl) _
  have hboolean : o.bare.isBoolean id = o.isBoolean id := o.allWithin_bare id (fun _ _ => rfl) _
  have harray : o.bare.isArray id = o.isArray id := o.allWithin_bare id (fun _ _ => rfl) _
  unfold shape
  rw [isFunction_bare, hstring, hboolean, harray, isPlainObject_bare]
  rfl

end Bare

namespace Reorders

variable {o o' : Oracle} (h : o.Reorders o')
include h

theorem isFunction_eq (id : TypeId) : o.isFunction id = o'.isFunction id := by
  rw [← isFunction_bare, h.bare, isFunction_bare]

theorem shape_eq (id : TypeId) : o.shape id = o'.shape id := by
  rw [← shape_bare, h.bare, shape_bare]

theorem contributes_eq : o.contributes = o'.contributes := by
  funext id
  unfold contributes
  rw [h.isFunction_eq, ← isPlainObject_bare, h.bare, isPlainObject_bare]

theorem members_eq (id : TypeId) : (o.info id).members = (o'.info id).members := by
  show (o.bare.info id).members = (o'.bare.info id).members
  rw [h.bare]

theorem expectedType_eq : o.expectedType = o'.expectedType := by
  show o.bare.expectedType = o'.bare.expectedType
  rw [h.bare]

theorem propertyTypeAt_eq : o.propertyTypeAt = o'.propertyTypeAt := by
  show o.bare.propertyTypeAt = o'.bare.propertyTypeAt
  rw [h.bare]

/-- The properties to complete with are the same, in some other order. -/
theorem completableProperties_perm (id : TypeId) :
    (o.completableProperties id).Perm (o'.completableProperties id) := by
  unfold completableProperties
  rw [h.contributes_eq, h.members_eq]
  set contributing := ((o'.info id).members.getD [id]).filter o'.contributes
  have hperm : (contributing.flatMap fun member => (o.info member).properties).Perm
      (contributing.flatMap fun member => (o'.info member).properties) :=
    List.Perm.flatMap_left contributing fun member _ => h.properties member
  by_cases hone : contributing.length ≤ 1
  · simp only [hone, if_true]
    exact hperm
  · simp only [hone, if_false, hperm.countP_eq]
    exact hperm.filter _

end Reorders

end Assist.Types.Oracle

namespace Assist.Completion

open Assist.Syntax Assist.Types

/-! ## Additions for different names -/

/-- A block for entries of one name holds entries of that name. -/
structure ActsOn (name : String) (p : Entry → Bool) (block : Entry → List Entry) : Prop where
  named : ∀ e, p e = true → e.name = name
  blockNamed : ∀ e, p e = true → ∀ new ∈ block e, new.name = name

section Additions

variable {p q : Entry → Bool} {block block' : Entry → List Entry} {name name' : String}
  {entries : List Entry}

/-- Entries of another name are not found. -/
theorem ActsOn.not_of_name_ne (h : ActsOn name p block) {e : Entry} (he : e.name ≠ name) :
    ¬p e = true := by
  intro hp
  exact he (h.named e hp)

/-- Blocks for entries of different names do not meet. -/
theorem expandFirst_comm (h : ActsOn name p block) (h' : ActsOn name' q block') (hne : name ≠ name')
    (entries : List Entry) :
    expandFirst q block' (expandFirst p block entries) =
      expandFirst p block (expandFirst q block' entries) := by
  induction entries with
  | nil => rfl
  | cons e entries ih =>
    by_cases hp : p e = true
    · have hq : ¬q e = true := h'.not_of_name_ne (h.named e hp ▸ hne)
      have hblock : ∀ new ∈ block e, ¬q new = true := fun new hnew =>
        h'.not_of_name_ne (h.blockNamed e hp new hnew ▸ hne)
      rw [expandFirst_cons_of_pos hp, expandFirst_append_of_none hblock, expandFirst_cons_of_neg hq,
        expandFirst_cons_of_pos hp]
    · by_cases hq : q e = true
      · have hblock : ∀ new ∈ block' e, ¬p new = true := fun new hnew =>
          h.not_of_name_ne (h'.blockNamed e hq new hnew ▸ hne.symm)
        rw [expandFirst_cons_of_neg hp, expandFirst_cons_of_pos hq, expandFirst_cons_of_pos hq,
          expandFirst_append_of_none hblock]
      · rw [expandFirst_cons_of_neg hp, expandFirst_cons_of_neg hq, expandFirst_cons_of_neg hq,
          expandFirst_cons_of_neg hp, ih]

/-- Entries of another name are found as before. -/
theorem ActsOn.find?_eq (h : ActsOn name p block) (hq : ∀ e, q e = true → e.name ≠ name)
    (entries : List Entry) : (expandFirst p block entries).find? q = entries.find? q := by
  refine find?_expandFirst (fun e hp hqe => ?_) (fun e hp new hnew hqn => ?_) entries
  · exact hq e hqe (h.named e hp)
  · exact hq new hqn (h.blockNamed e hp new hnew)

theorem actsOn_beside (placement : Placement) {new : Entry → Entry}
    (hnew : ∀ e, e.isPlainOf name = true → (new e).name = name) :
    ActsOn name (Entry.isPlainOf name) fun e => e.beside placement (new e) where
  named _ he := (Entry.isPlainOf_iff.mp he).1
  blockNamed e he found hfound := by
    obtain rfl | rfl := eq_or_eq_of_mem_beside hfound
    · exact (Entry.isPlainOf_iff.mp he).1
    · exact hnew e he

theorem actsOn_value (placement : Placement) (name : String) (snippet : Snippet) :
    ActsOn name (Entry.isPlainOf name) fun e => e.beside placement (e.withValue snippet) :=
  actsOn_beside placement fun _ he => (Entry.isPlainOf_iff.mp he).1

theorem actsOn_method (placement : Placement) {found : Entry}
    (h : entries.find? (Entry.isMethodOf name) = some found) :
    ActsOn name (Entry.isPlainOf name)
      fun e => e.beside placement { found with sortText := e.sortText } :=
  actsOn_beside placement fun _ _ => (Entry.isMethodOf_iff.mp (List.find?_some h)).1

theorem actsOn_without_method (name : String) :
    ActsOn name (Entry.isMethodOf name) fun _ => [] where
  named _ he := (Entry.isMethodOf_iff.mp he).1
  blockNamed _ _ _ hnew := absurd hnew List.not_mem_nil

/-- An addition for one name and a block for entries of another. -/
theorem addTo_expandFirst (placement : Placement) (addition : Addition) (h : ActsOn name' q block')
    (hne : name ≠ name') (entries : List Entry) :
    addition.addTo placement name (expandFirst q block' entries) =
      expandFirst q block' (addition.addTo placement name entries) := by
  cases addition with
  | nothing => rfl
  | value snippet => exact (expandFirst_comm (actsOn_value placement name snippet) h hne _).symm
  | method =>
    have hfind : (expandFirst q block' entries).find? (Entry.isMethodOf name) =
        entries.find? (Entry.isMethodOf name) := by
      refine h.find?_eq (fun e he => ?_) entries
      rw [(Entry.isMethodOf_iff.mp he).1]
      exact hne
    cases hfound : entries.find? (Entry.isMethodOf name) with
    | none =>
      rw [addTo_method_of_none placement hfound, addTo_method_of_none placement
        (hfind.trans hfound)]
    | some found =>
      rw [addTo_method_of_some placement hfound, addTo_method_of_some placement
        (hfind.trans hfound), expandFirst_comm (actsOn_method placement hfound) h hne,
        expandFirst_comm (actsOn_without_method name) h hne]

/-- Entries of other names are found as before an addition. -/
theorem find?_addTo (placement : Placement) (addition : Addition)
    (hq : ∀ e, q e = true → e.name ≠ name) (entries : List Entry) :
    (addition.addTo placement name entries).find? q = entries.find? q := by
  cases addition with
  | nothing => rfl
  | value snippet => exact (actsOn_value placement name snippet).find?_eq hq entries
  | method =>
    cases hfound : entries.find? (Entry.isMethodOf name) with
    | none => rw [addTo_method_of_none placement hfound]
    | some found =>
      rw [addTo_method_of_some placement hfound, (actsOn_method placement hfound).find?_eq hq,
        (actsOn_without_method name).find?_eq hq]

/-- **Two additions for different names** can be made in either order. -/
theorem addTo_addTo (placement : Placement) (first second : Addition) (hne : name ≠ name')
    (entries : List Entry) :
    second.addTo placement name' (first.addTo placement name entries) =
      first.addTo placement name (second.addTo placement name' entries) := by
  cases second with
  | nothing => rfl
  | value snippet =>
    have hvalue := actsOn_value placement name' snippet
    exact (addTo_expandFirst placement first hvalue hne entries).symm
  | method =>
    have hfind : (first.addTo placement name entries).find? (Entry.isMethodOf name') =
        entries.find? (Entry.isMethodOf name') := by
      refine find?_addTo placement first (fun e he => ?_) entries
      rw [(Entry.isMethodOf_iff.mp he).1]
      exact hne.symm
    cases hfound : entries.find? (Entry.isMethodOf name') with
    | none =>
      rw [addTo_method_of_none placement hfound, addTo_method_of_none placement
        (hfind.trans hfound)]
    | some found =>
      have hmethod := actsOn_method placement hfound
      rw [addTo_method_of_some placement hfound, addTo_method_of_some placement
        (hfind.trans hfound), addTo_expandFirst placement first hmethod hne,
        addTo_expandFirst placement first (actsOn_without_method name') hne]

end Additions

/-! ## Properties in either order -/

variable {r : Request} {node : NodeId} {property other : Property} {entries : List Entry}

theorem quoteFor_eq_error_of_snippetFor? {tree : Tree} {preferences : Preferences}
    {settings : Settings} {shape : ValueShape} {fault : Fault}
    (h : snippetFor? tree preferences settings shape = .error fault) :
    quoteFor tree preferences = .error fault := by
  cases shape with
  | string =>
    cases hquote : quoteFor tree preferences with
    | error other => simpa [snippetFor?, hquote, bind, Except.bind] using h
    | ok quote => simp [snippetFor?, hquote, bind, Except.bind, pure, Except.pure] at h
  | _ => exact absurd h (by simp [snippetFor?])

/-- A property fails only for the quotes of the file. -/
theorem quoteFor_eq_error_of_addition {fault : Fault}
    (h : r.addition node entries property = .error fault) :
    quoteFor r.tree r.preferences = .error fault := by
  unfold Request.addition at h
  split at h
  · split_ifs at h with hfunction hvalues
    split at h
    · rename_i hsnippet
      rw [← Except.error.inj h]
      exact quoteFor_eq_error_of_snippetFor? hsnippet
    · exact absurd h (by simp)
    · exact absurd h (by simp)
  · exact absurd h (by simp)

/-- An addition for another name does not matter to a property. -/
theorem addition_addTo (addition : Addition) {name : String} (hne : name ≠ property.name)
    (entries : List Entry) :
    r.addition node (addition.addTo r.settings.placement name entries) property =
      r.addition node entries property := by
  unfold Request.addition
  rw [find?_addTo]
  intro e he
  rw [(Entry.isPlainOf_iff.mp he).1]
  exact hne.symm

/-- **Two properties with different names** can be completed in either order. -/
theorem complete_comm (hne : property.name ≠ other.name) (entries : List Entry) :
    (r.complete node entries property).bind (r.complete node · other) =
      (r.complete node entries other).bind (r.complete node · property) := by
  have hfirst : ∀ addition : Addition,
      r.complete node (addition.addTo r.settings.placement property.name entries) other =
        (r.addition node entries other).map (Addition.addTo r.settings.placement other.name
          (addition.addTo r.settings.placement property.name entries)) := by
    intro addition
    rw [complete_eq, addition_addTo addition hne]
  have hsecond : ∀ addition : Addition,
      r.complete node (addition.addTo r.settings.placement other.name entries) property =
        (r.addition node entries property).map (Addition.addTo r.settings.placement property.name
          (addition.addTo r.settings.placement other.name entries)) := by
    intro addition
    rw [complete_eq, addition_addTo addition hne.symm]
  rw [complete_eq, complete_eq]
  cases hproperty : r.addition node entries property with
  | error fault =>
    cases hother : r.addition node entries other with
    | error fault' =>
      -- both fail for the quotes of the file, and so alike
      have hquote := quoteFor_eq_error_of_addition hproperty
      rw [quoteFor_eq_error_of_addition hother] at hquote
      rw [Except.error.inj hquote]
      rfl
    | ok addition' => exact ((hsecond addition').trans (by rw [hproperty]; rfl)).symm
  | ok addition =>
    cases hother : r.addition node entries other with
    | error fault' => exact (hfirst addition).trans (by rw [hother]; rfl)
    | ok addition' =>
      show r.complete node (addition.addTo _ _ entries) other =
        r.complete node (addition'.addTo _ _ entries) property
      rw [hfirst, hsecond, hproperty, hother]
      exact congrArg Except.ok (addTo_addTo _ addition addition' hne entries)

/-- All properties, in any order. -/
theorem foldlM_complete_eq_of_perm {properties properties' : List Property}
    (hperm : properties.Perm properties') (hdistinct : (properties.map Property.name).Nodup)
    (entries : List Entry) :
    properties.foldlM (r.complete node) entries = properties'.foldlM (r.complete node) entries := by
  rw [List.foldlM_eq_foldl, List.foldlM_eq_foldl]
  refine hperm.foldl_eq' ?_ _
  intro first hfirst second hsecond current
  by_cases heq : first = second
  · rw [heq]
  · have hne : first.name ≠ second.name := fun hname =>
      heq (List.inj_on_of_nodup_map hdistinct hfirst hsecond hname)
    cases current with
    | error fault => rfl
    | ok entries => exact complete_comm hne entries

/-- One property is completed alike with both oracles. -/
theorem complete_eq_of_reorders {o : Oracle} (h : r.oracle.Reorders o) (node : NodeId) :
    { r with oracle := o }.complete node = r.complete node := by
  funext entries property
  unfold Request.complete
  simp only [h.propertyTypeAt_eq, h.isFunction_eq, h.shape_eq]

/-- **The order of properties does not matter.** A request ends alike with two oracles that list
properties in different orders. Where a single object type is expected, its properties have to have
different names. -/
theorem extend_eq_of_reorders (r : Request) (o : Oracle) (h : r.oracle.Reorders o)
    (hdistinct : ∀ node expected object, r.literal? = some node →
      r.oracle.expectedType node = some expected → r.oracle.contributors expected = [object] →
        ((r.oracle.info object).properties.map Property.name).Nodup)
    (entries : List Entry) : { r with oracle := o }.extend entries = r.extend entries := by
  have hliteral : { r with oracle := o }.literal? = r.literal? := rfl
  have hactive : { r with oracle := o }.isActive = r.isActive := rfl
  unfold Request.extend
  rw [hliteral, hactive]
  by_cases hstays : (entries.isEmpty || !r.isActive) = true
  · rw [if_pos hstays, if_pos hstays]
  · rw [if_neg hstays, if_neg hstays]
    cases hnode : r.literal? with
    | none => rfl
    | some node =>
      simp only [← h.expectedType_eq, complete_eq_of_reorders h]
      cases hexpected : r.oracle.expectedType node with
      | none => rfl
      | some expected =>
        have hperm := h.completableProperties_perm expected
        have hnames := r.oracle.nodup_name_completableProperties expected
          fun object => hdistinct node expected object hnode hexpected
        simp only [foldlM_complete_eq_of_perm hperm hnames]

/-! ## A sample -/

/-- The oracle that lists all properties from the last to the first. -/
def backwards (o : Oracle) : Oracle :=
  { o with info := fun id => { o.info id with properties := (o.info id).properties.reverse } }

theorem reorders_backwards (o : Oracle) : o.Reorders (backwards o) :=
  ⟨rfl, fun id => (List.reverse_perm (o.info id).properties).symm⟩

/-- The request of the options with method snippets. -/
def methodRequest : Request :=
  { optionsRequest with preferences := { optionsRequest.preferences with methodSnippets := true } }

theorem extend_eq_of_reorders_options :
    methodRequest.extend [runMethod, tagsEntry, runEntry, moodEntry] =
        .ok (some [tagsEntry, tagsEntry.withValue ⟨": [\n\t$1\n],$0", ": [],"⟩, runEntry,
          { runMethod with sortText := "11" }, moodEntry,
          moodEntry.withValue ⟨": \"$1\",$0", ": \"\","⟩]) ∧
      { methodRequest with oracle := backwards methodRequest.oracle }.extend
          [runMethod, tagsEntry, runEntry, moodEntry] =
        methodRequest.extend [runMethod, tagsEntry, runEntry, moodEntry] := by
  refine ⟨by decide +kernel, extend_eq_of_reorders _ _ (reorders_backwards _) ?_ _⟩
  intro node expected object hnode hexpected hobject
  have hliteral : methodRequest.literal? = some ⟨0⟩ := by decide +kernel
  rw [hliteral, Option.some.injEq] at hnode
  subst hnode
  have htype : methodRequest.oracle.expectedType ⟨0⟩ = some ⟨15⟩ := by decide +kernel
  rw [htype, Option.some.injEq] at hexpected
  subst hexpected
  have hone : methodRequest.oracle.contributors ⟨15⟩ = [⟨15⟩] := by decide +kernel
  rw [hone, List.cons.injEq] at hobject
  rw [← hobject.1]
  decide +kernel

end Assist.Completion
