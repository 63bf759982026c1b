import Assist.Proofs.Completion.OnePass
import Assist.Proofs.Completion.Placing

/-!
# What completion keeps of the entries

An entry with a value has the name, kind and sort key of the entry it comes from. A method that is
moved keeps its name and kind, and gets the sort key of the plain entry of that name. So a
completion makes up neither an entry nor a sort key: it pairs names with sort keys and with kinds
only as the list before it did (`SameIdentities`), and no name gets lost. This is true of one
addition, and so of all properties of one request and of requests one after the other
(`sameIdentities_of_run`).
-/

namespace Assist.Completion

open Assist.Syntax Assist.Types

/-- The name of an entry with its sort key. -/
def Entry.sortKey (entry : Entry) : String × String := (entry.name, entry.sortText)

/-- The name of an entry with its kind. -/
def Entry.identity (entry : Entry) : String × String × Option String :=
  (entry.name, entry.kind, entry.kindModifiers)

/-- All that one list says of names, sort keys and kinds is in another list, and that list has no
names of its own. -/
structure SameIdentities (before after : List Entry) : Prop where
  sortKeys : after.map Entry.sortKey ⊆ before.map Entry.sortKey
  identities : after.map Entry.identity ⊆ before.map Entry.identity
  names : before.map Entry.name ⊆ after.map Entry.name

section Steps

variable {before after later entries : List Entry} {p : Entry → Bool} {block : Entry → List Entry}

theorem SameIdentities.refl (entries : List Entry) : SameIdentities entries entries :=
  ⟨fun _ h => h, fun _ h => h, fun _ h => h⟩

theorem SameIdentities.trans (h : SameIdentities before after) (h' : SameIdentities after later) :
    SameIdentities before later where
  sortKeys := fun _ hkey => h.sortKeys (h'.sortKeys hkey)
  identities := fun _ hidentity => h.identities (h'.identities hidentity)
  names := fun _ hname => h'.names (h.names hname)

/-- Steps that keep the identities keep them along a list of steps. -/
theorem SameIdentities.foldlM {α : Type} {step : List Entry → α → Except Fault (List Entry)}
    (hstep : ∀ entries a out, step entries a = .ok out → SameIdentities entries out)
    {steps : List α} {out : List Entry} (h : steps.foldlM step entries = .ok out) :
    SameIdentities entries out := by
  induction steps generalizing entries with
  | nil =>
    rw [← Except.ok.inj h]
    exact SameIdentities.refl entries
  | cons a steps ih =>
    rw [List.foldlM_cons] at h
    cases hnext : step entries a with
    | error fault => simp [hnext, bind, Except.bind] at h
    | ok next =>
      simp only [hnext, bind, Except.bind] at h
      exact (hstep entries a next hnext).trans (ih h)

/-! ## One addition -/

theorem mem_of_mem_expandFirst {entry : Entry} (h : entry ∈ expandFirst p block entries) :
    entry ∈ entries ∨ ∃ old ∈ entries, p old = true ∧ entry ∈ block old := by
  induction entries with
  | nil => exact absurd h List.not_mem_nil
  | cons e entries ih =>
    by_cases he : p e = true
    · rw [expandFirst_cons_of_pos he, List.mem_append] at h
      obtain hblock | hrest := h
      · exact Or.inr ⟨e, List.mem_cons_self, he, hblock⟩
      · exact Or.inl (List.mem_cons_of_mem e hrest)
    · rw [expandFirst_cons_of_neg he, List.mem_cons] at h
      obtain rfl | hrest := h
      · exact Or.inl List.mem_cons_self
      · obtain hold | ⟨old, hold, hp, hblock⟩ := ih hrest
        · exact Or.inl (List.mem_cons_of_mem e hold)
        · exact Or.inr ⟨old, List.mem_cons_of_mem e hold, hp, hblock⟩

/-- An entry stays, or its block is there. -/
theorem mem_or_subset_expandFirst {entry : Entry} (h : entry ∈ entries) :
    entry ∈ expandFirst p block entries ∨
      (p entry = true ∧ block entry ⊆ expandFirst p block entries) := by
  induction entries with
  | nil => exact absurd h List.not_mem_nil
  | cons e entries ih =>
    by_cases he : p e = true
    · rw [expandFirst_cons_of_pos he]
      obtain rfl | hrest := List.mem_cons.mp h
      · exact Or.inr ⟨he, List.subset_append_left _ _⟩
      · exact Or.inl (List.mem_append_right _ hrest)
    · rw [expandFirst_cons_of_neg he]
      obtain rfl | hrest := List.mem_cons.mp h
      · exact Or.inl List.mem_cons_self
      · obtain hstays | ⟨hp, hblock⟩ := ih hrest
        · exact Or.inl (List.mem_cons_of_mem e hstays)
        · exact Or.inr ⟨hp, List.subset_cons_of_subset e hblock⟩

theorem new_mem_beside (placement : Placement) (entry new : Entry) :
    new ∈ entry.beside placement new := by
  cases placement <;> simp [Entry.beside]

/-- New entries beside some of the entries of a list, with the sort keys of these. The list has the
names of the list before, from which also the kinds are taken. -/
theorem SameIdentities.beside (placement : Placement) {new : Entry → Entry}
    (hsubset : entries ⊆ before) (hnames : before.map Entry.name ⊆ entries.map Entry.name)
    (hkey : ∀ e, p e = true → (new e).sortKey = e.sortKey)
    (hidentity : ∀ e ∈ entries, p e = true → (new e).identity ∈ before.map Entry.identity) :
    SameIdentities before (expandFirst p (fun e => e.beside placement (new e)) entries) where
  sortKeys key h := by
    obtain ⟨entry, hentry, rfl⟩ := List.mem_map.mp h
    obtain hold | ⟨old, hold, hp, hblock⟩ := mem_of_mem_expandFirst hentry
    · exact List.mem_map_of_mem (hsubset hold)
    · have hsame : entry.sortKey = old.sortKey := by
        obtain rfl | rfl := eq_or_eq_of_mem_beside hblock
        · rfl
        · exact hkey old hp
      rw [hsame]
      exact List.mem_map_of_mem (hsubset hold)
  identities identity h := by
    obtain ⟨entry, hentry, rfl⟩ := List.mem_map.mp h
    obtain hold | ⟨old, hold, hp, hblock⟩ := mem_of_mem_expandFirst hentry
    · exact List.mem_map_of_mem (hsubset hold)
    · obtain rfl | rfl := eq_or_eq_of_mem_beside hblock
      · exact List.mem_map_of_mem (hsubset hold)
      · exact hidentity old hold hp
  names name h := by
    obtain ⟨entry, hentry, rfl⟩ := List.mem_map.mp (hnames h)
    obtain hstays | ⟨hp, hblock⟩ := mem_or_subset_expandFirst hentry
    · exact List.mem_map_of_mem hstays
    · have hname : (new entry).name = entry.name := congrArg Prod.fst (hkey entry hp)
      rw [← hname]
      exact List.mem_map_of_mem (hblock (new_mem_beside placement entry (new entry)))

/-- **One addition** keeps the identities, if the plain entry of the name is in the list. -/
theorem SameIdentities.addTo (placement : Placement) {name : String}
    (hplain : (entries.find? (Entry.isPlainOf name)).isSome = true) (addition : Addition) :
    SameIdentities entries (addition.addTo placement name entries) := by
  cases addition with
  | nothing => exact SameIdentities.refl entries
  | value snippet =>
    refine SameIdentities.beside placement (fun _ h => h) (fun _ h => h) (fun e _ => rfl) ?_
    intro e he _
    show e.identity ∈ entries.map Entry.identity
    exact List.mem_map_of_mem he
  | method =>
    cases hfound : entries.find? (Entry.isMethodOf name) with
    | none =>
      rw [addTo_method_of_none placement hfound]
      exact SameIdentities.refl entries
    | some found =>
      rw [addTo_method_of_some placement hfound]
      have hname : found.name = name := (Entry.isMethodOf_iff.mp (List.find?_some hfound)).1
      refine SameIdentities.beside placement ?_ ?_ ?_ ?_
      · -- what is left once the method is out was there before
        intro e he
        obtain hold | ⟨old, -, -, hnil⟩ := mem_of_mem_expandFirst he
        · exact hold
        · exact absurd hnil List.not_mem_nil
      · -- the name of the method is also that of the plain entry, which is left
        intro other h
        obtain ⟨e, he, rfl⟩ := List.mem_map.mp h
        obtain hstays | ⟨hmethod, -⟩ := mem_or_subset_expandFirst he
        · exact List.mem_map_of_mem hstays
        · rw [← find?_isPlainOf_without_method] at hplain
          obtain ⟨plain, hfind⟩ := Option.isSome_iff_exists.mp hplain
          have hsame : e.name = plain.name := by
            rw [(Entry.isMethodOf_iff.mp hmethod).1,
              (Entry.isPlainOf_iff.mp (List.find?_some hfind)).1]
          rw [hsame]
          exact List.mem_map_of_mem (List.mem_of_find?_eq_some hfind)
      · intro e he
        show (found.name, e.sortText) = (e.name, e.sortText)
        rw [hname, (Entry.isPlainOf_iff.mp he).1]
      · intro e _ _
        show found.identity ∈ entries.map Entry.identity
        exact List.mem_map_of_mem (List.mem_of_find?_eq_some hfound)

end Steps

/-! ## Requests -/

variable {r : Request} {entries out : List Entry}

theorem SameIdentities.complete {node : NodeId} {property : Property}
    (h : r.complete node entries property = .ok out) : SameIdentities entries out := by
  rw [complete_eq] at h
  cases haddition : r.addition node entries property with
  | error fault =>
    rw [haddition] at h
    exact absurd h (by simp [Except.map])
  | ok addition =>
    rw [haddition] at h
    rw [← Except.ok.inj h]
    by_cases hplain : (entries.find? (Entry.isPlainOf property.name)).isSome = true
    · exact SameIdentities.addTo r.settings.placement hplain addition
    · rw [addition_of_find?_eq_none (Option.not_isSome_iff_eq_none.mp hplain)] at haddition
      rw [← Except.ok.inj haddition]
      exact SameIdentities.refl entries

/-- A list that was completed is made property by property. -/
theorem exists_foldlM_of_extend (h : r.extend entries = .ok (some out)) :
    ∃ node expected, r.literal? = some node ∧ r.oracle.expectedType node = some expected ∧
      (r.oracle.completableProperties expected).foldlM (r.complete node) entries = .ok out := by
  unfold Request.extend at h
  split at h
  · exact absurd h (by simp)
  · cases hnode : r.literal? with
    | none => simp [hnode] at h
    | some node =>
      cases hexpected : r.oracle.expectedType node with
      | none => simp [hnode, hexpected] at h
      | some expected =>
        refine ⟨node, expected, rfl, hexpected, ?_⟩
        simp only [hnode, hexpected] at h
        cases hrun : (r.oracle.completableProperties expected).foldlM (r.complete node) entries with
        | error fault => simp [hrun, bind, Except.bind] at h
        | ok result => simpa [hrun, bind, Except.bind, pure, Except.pure] using h

/-- The list that a request ends with: the completed one, or the one it was given. -/
def Request.after (r : Request) (entries : List Entry) : Except Fault (List Entry) := do
  return (← r.extend entries).getD entries

theorem SameIdentities.after (h : r.after entries = .ok out) : SameIdentities entries out := by
  unfold Request.after at h
  cases hextend : r.extend entries with
  | error fault => simp [hextend, bind, Except.bind] at h
  | ok completed =>
    simp only [hextend, bind, Except.bind, pure, Except.pure, Except.ok.injEq] at h
    subst h
    cases completed with
    | none => exact SameIdentities.refl entries
    | some out =>
      obtain ⟨node, expected, -, -, hrun⟩ := exists_foldlM_of_extend hextend
      exact SameIdentities.foldlM (fun _ _ _ hstep => SameIdentities.complete hstep) hrun

/-- **Requests one after the other**, each with the list that the one before it ended with. Every
entry of the last list has a sort key and a kind that its name has in the first list, and no name is
lost. -/
theorem sameIdentities_of_run (requests : List Request) (entries out : List Entry)
    (h : requests.foldlM (fun entries r => r.after entries) entries = .ok out) :
    SameIdentities entries out :=
  SameIdentities.foldlM (fun _ _ _ hstep => SameIdentities.after hstep) h

/-! ## A sample -/

/-- The request of the options with method snippets, once above and once in the place of the plain
entry. -/
def methodRequests : List Request :=
  [{ optionsRequest with
      preferences := { optionsRequest.preferences with methodSnippets := true }
      settings := { optionsRequest.settings with placement := .above } },
    { optionsRequest with
      preferences := { optionsRequest.preferences with methodSnippets := true }
      settings := { optionsRequest.settings with placement := .remove } }]

theorem sameIdentities_of_run_options :
    methodRequests.foldlM (fun entries r => r.after entries) [runEntry, moodEntry, runMethod] =
        .ok [{ runMethod with sortText := "11" },
          moodEntry.withValue ⟨": \"$1\",$0", ": \"\","⟩, moodEntry] ∧
      SameIdentities [runEntry, moodEntry, runMethod] [{ runMethod with sortText := "11" },
        moodEntry.withValue ⟨": \"$1\",$0", ": \"\","⟩, moodEntry] := by
  have h : methodRequests.foldlM (fun entries r => r.after entries)
      [runEntry, moodEntry, runMethod] = .ok [{ runMethod with sortText := "11" },
        moodEntry.withValue ⟨": \"$1\",$0", ": \"\","⟩, moodEntry] := by
    decide +kernel
  exact ⟨h, sameIdentities_of_run _ _ _ h⟩

end Assist.Completion
