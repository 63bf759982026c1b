import Assist.Completion.ObjectLiteral
import Mathlib.Data.List.Basic

/-!
# What one property adds to a list

Completing a property finds positions in the list and puts entries in at them. Said without
positions, the first plain entry of the name is replaced by a block: itself and the new entry, in
the order that the settings ask for. A method is taken out of the list first, which is a block too,
the empty one. So every change of the list is an `expandFirst`, and `complete_eq` says what
completing a property does by two of them at most.
-/

namespace Assist.Completion

open Assist.Syntax Assist.Types

/-! ## Blocks in place of entries -/

/-- The list with a block in place of the first entry that satisfies `p`. -/
def expandFirst (p : Entry → Bool) (block : Entry → List Entry) : List Entry → List Entry
  | [] => []
  | entry :: entries =>
    if p entry then block entry ++ entries else entry :: expandFirst p block entries

/-- An entry and a new one, as they are placed. -/
def Entry.beside (placement : Placement) (entry new : Entry) : List Entry :=
  match placement with
  | .above => [new, entry]
  | .below => [entry, new]
  | .remove => [new]

/-- An entry of the name that does not insert a method. -/
def Entry.isPlainOf (name : String) (entry : Entry) : Bool :=
  entry.name == name && !entry.isMethodSnippet

/-- An entry of the name that inserts a method. -/
def Entry.isMethodOf (name : String) (entry : Entry) : Bool :=
  entry.name == name && entry.isMethodSnippet

section Blocks

variable {p q : Entry → Bool} {block : Entry → List Entry} {entries : List Entry} {entry : Entry}

theorem Entry.isPlainOf_iff {name : String} :
    entry.isPlainOf name = true ↔ entry.name = name ∧ entry.isMethodSnippet = false := by
  rw [isPlainOf, Bool.and_eq_true, beq_iff_eq, Bool.not_eq_true']

theorem Entry.isMethodOf_iff {name : String} :
    entry.isMethodOf name = true ↔ entry.name = name ∧ entry.isMethodSnippet = true := by
  rw [isMethodOf, Bool.and_eq_true, beq_iff_eq]

theorem eq_or_eq_of_mem_beside {placement : Placement} {entry new found : Entry}
    (h : found ∈ entry.beside placement new) : found = entry ∨ found = new := by
  cases placement with
  | above =>
    obtain rfl | rfl := List.mem_pair.mp h
    · exact Or.inr rfl
    · exact Or.inl rfl
  | below => exact List.mem_pair.mp h
  | remove => exact Or.inr (List.mem_singleton.mp h)

theorem expandFirst_cons_of_pos (h : p entry = true) :
    expandFirst p block (entry :: entries) = block entry ++ entries := by
  rw [expandFirst, if_pos h]

theorem expandFirst_cons_of_neg (h : ¬p entry = true) :
    expandFirst p block (entry :: entries) = entry :: expandFirst p block entries := by
  rw [expandFirst, if_neg h]

/-- Entries that do not satisfy `p` are passed over. -/
theorem expandFirst_append_of_none {before : List Entry} (h : ∀ e ∈ before, ¬p e = true) :
    expandFirst p block (before ++ entries) = before ++ expandFirst p block entries := by
  induction before with
  | nil => rfl
  | cons e before ih =>
    rw [List.cons_append, expandFirst_cons_of_neg (h e List.mem_cons_self),
      ih fun other hother => h other (List.mem_cons_of_mem e hother), List.cons_append]

/-- The entry found first is at the index found first. -/
theorem exists_of_findIdx? {index : Nat} (h : entries.findIdx? p = some index) :
    ∃ found, entries[index]? = some found ∧ entries.find? p = some found := by
  induction entries generalizing index with
  | nil => exact absurd h (by simp)
  | cons e entries ih =>
    rw [List.findIdx?_cons] at h
    by_cases he : p e = true
    · rw [if_pos he, Option.some.injEq] at h
      subst h
      exact ⟨e, rfl, List.find?_cons_of_pos he⟩
    · rw [if_neg he, Option.map_eq_some_iff] at h
      obtain ⟨later, hlater, rfl⟩ := h
      rw [List.find?_cons_of_neg he, List.getElem?_cons_succ]
      exact ih hlater

theorem find?_eq_none_of_findIdx? (h : entries.findIdx? p = none) : entries.find? p = none := by
  rw [List.find?_eq_none]
  intro e he
  rw [List.findIdx?_eq_none_iff.mp h e he]
  exact Bool.false_ne_true

/-- Placing an entry at the index found first. -/
theorem place_eq_expandFirst (placement : Placement) (new : Entry → Entry) {index : Nat}
    (hindex : entries.findIdx? p = some index) (hentry : entries.find? p = some entry) :
    place placement entries index (new entry) =
      expandFirst p (fun e => e.beside placement (new e)) entries := by
  induction entries generalizing index with
  | nil => exact absurd hindex (by simp)
  | cons e entries ih =>
    rw [List.findIdx?_cons] at hindex
    by_cases he : p e = true
    · rw [if_pos he, Option.some.injEq] at hindex
      rw [List.find?_cons_of_pos he, Option.some.injEq] at hentry
      subst hindex hentry
      rw [expandFirst_cons_of_pos he]
      cases placement <;> rfl
    · rw [if_neg he, Option.map_eq_some_iff] at hindex
      obtain ⟨later, hlater, rfl⟩ := hindex
      rw [List.find?_cons_of_neg he] at hentry
      rw [expandFirst_cons_of_neg he, ← ih hlater hentry]
      cases placement <;> rfl

/-- Taking out the entry at the index found first. -/
theorem eraseIdx_eq_expandFirst {index : Nat} (h : entries.findIdx? p = some index) :
    entries.eraseIdx index = expandFirst p (fun _ => []) entries := by
  induction entries generalizing index with
  | nil => exact absurd h (by simp)
  | cons e entries ih =>
    rw [List.findIdx?_cons] at h
    by_cases he : p e = true
    · rw [if_pos he, Option.some.injEq] at h
      rw [← h, expandFirst_cons_of_pos he]
      rfl
    · rw [if_neg he, Option.map_eq_some_iff] at h
      obtain ⟨later, hlater, rfl⟩ := h
      rw [expandFirst_cons_of_neg he, ← ih hlater]
      rfl

/-- The index found first once another entry is taken out. -/
theorem findIdx?_eraseIdx (hpq : ∀ e, p e = true → ¬q e = true) {index out : Nat}
    (hindex : entries.findIdx? p = some index) (hout : entries.findIdx? q = some out) :
    (entries.eraseIdx out).findIdx? p = some (if out < index then index - 1 else index) := by
  induction entries generalizing index out with
  | nil => exact absurd hindex (by simp)
  | cons e entries ih =>
    rw [List.findIdx?_cons] at hindex hout
    by_cases hp : p e = true
    · rw [if_pos hp, Option.some.injEq] at hindex
      rw [if_neg (hpq e hp), Option.map_eq_some_iff] at hout
      obtain ⟨later, -, rfl⟩ := hout
      subst hindex
      rw [List.eraseIdx_cons_succ, List.findIdx?_cons, if_pos hp, if_neg (by omega)]
    · rw [if_neg hp, Option.map_eq_some_iff] at hindex
      obtain ⟨later, hlater, rfl⟩ := hindex
      by_cases hq : q e = true
      · rw [if_pos hq, Option.some.injEq] at hout
        subst hout
        rw [List.eraseIdx_cons_zero, hlater, if_pos (by omega), Nat.add_sub_cancel]
      · rw [if_neg hq, Option.map_eq_some_iff] at hout
        obtain ⟨out, hout, rfl⟩ := hout
        rw [List.eraseIdx_cons_succ, List.findIdx?_cons, if_neg hp, ih hlater hout,
          Option.map_some, Option.some.injEq]
        split_ifs <;> omega

/-- What is found elsewhere is not disturbed. -/
theorem find?_expandFirst (hpq : ∀ e, p e = true → ¬q e = true)
    (hblock : ∀ e, p e = true → ∀ new ∈ block e, ¬q new = true) (entries : List Entry) :
    (expandFirst p block entries).find? q = entries.find? q := by
  induction entries with
  | nil => rfl
  | cons e entries ih =>
    by_cases hp : p e = true
    · have hnone : (block e).find? q = none := by
        rw [List.find?_eq_none]
        exact hblock e hp
      rw [expandFirst_cons_of_pos hp, List.find?_append, hnone, Option.none_or,
        List.find?_cons_of_neg (hpq e hp)]
    · rw [expandFirst_cons_of_neg hp, List.find?_cons, List.find?_cons, ih]

end Blocks

/-! ## What a property adds -/

/-- What a property adds to a list. -/
inductive Addition where
  | nothing
  | value (snippet : Snippet)
  | method

/-- What a property adds to a list: a value by its type, or the method that the host made, if its
plain entry is in the list. -/
def Request.addition (r : Request) (node : NodeId) (entries : List Entry) (property : Property) :
    Except Fault Addition :=
  match entries.find? (Entry.isPlainOf property.name), r.oracle.propertyTypeAt property node with
  | some _, some type =>
    if r.oracle.isFunction type then
      .ok (if r.preferences.methodSnippets then .method else .nothing)
    else if r.settings.offerValues then
      match snippetFor? r.tree r.preferences r.settings (r.oracle.shape type) with
      | .error fault => .error fault
      | .ok none => .ok .nothing
      | .ok (some snippet) => .ok (.value snippet)
    else .ok .nothing
  | _, _ => .ok .nothing

/-- The list with the addition for a name. A method leaves its place for the one beside the plain
entry, under the sort key of that entry. -/
def Addition.addTo (placement : Placement) (name : String) (entries : List Entry) :
    Addition → List Entry
  | .nothing => entries
  | .value snippet =>
    expandFirst (Entry.isPlainOf name) (fun e => e.beside placement (e.withValue snippet)) entries
  | .method =>
    match entries.find? (Entry.isMethodOf name) with
    | none => entries
    | some found =>
      expandFirst (Entry.isPlainOf name)
        (fun e => e.beside placement { found with sortText := e.sortText })
        (expandFirst (Entry.isMethodOf name) (fun _ => []) entries)

section Additions

variable {entries : List Entry} {name : String} {index : Nat}

theorem addTo_method_of_none (placement : Placement)
    (h : entries.find? (Entry.isMethodOf name) = none) :
    Addition.method.addTo placement name entries = entries := by
  unfold Addition.addTo
  rw [h]

theorem addTo_method_of_some (placement : Placement) {found : Entry}
    (h : entries.find? (Entry.isMethodOf name) = some found) :
    Addition.method.addTo placement name entries =
      expandFirst (Entry.isPlainOf name)
        (fun e => e.beside placement { found with sortText := e.sortText })
        (expandFirst (Entry.isMethodOf name) (fun _ => []) entries) := by
  unfold Addition.addTo
  rw [h]

theorem not_isMethodOf_of_isPlainOf {entry : Entry} (h : entry.isPlainOf name = true) :
    ¬entry.isMethodOf name = true := by
  rw [Entry.isPlainOf_iff] at h
  rw [Entry.isMethodOf_iff, h.2]
  simp

/-- The plain entry stays when the method is taken out. -/
theorem find?_isPlainOf_without_method (name : String) (entries : List Entry) :
    (expandFirst (Entry.isMethodOf name) (fun _ => []) entries).find? (Entry.isPlainOf name) =
      entries.find? (Entry.isPlainOf name) := by
  refine find?_expandFirst (fun e he hplain => ?_) (fun _ _ _ hnew => ?_) entries
  · exact not_isMethodOf_of_isPlainOf hplain he
  · exact absurd hnew List.not_mem_nil

theorem placeValue_eq (placement : Placement) (snippet : Snippet)
    (h : plainIndex? entries name = some index) :
    placeValue placement entries index snippet =
      (Addition.value snippet).addTo placement name entries := by
  obtain ⟨plain, hplain, hfind⟩ := exists_of_findIdx? h
  unfold placeValue
  rw [hplain]
  exact place_eq_expandFirst placement (fun e => e.withValue snippet) h hfind

theorem placeMethod_eq (placement : Placement) (h : plainIndex? entries name = some index) :
    placeMethod placement entries index = Addition.method.addTo placement name entries := by
  obtain ⟨plain, hplain, hfind⟩ := exists_of_findIdx? h
  have hname : plain.name = name := (Entry.isPlainOf_iff.mp (List.find?_some hfind)).1
  unfold placeMethod
  rw [hplain]
  simp only [hname]
  cases hmethod : methodIndex? entries name with
  | none => rw [addTo_method_of_none placement (find?_eq_none_of_findIdx? hmethod)]
  | some out =>
    obtain ⟨method, hmethod', hfound⟩ := exists_of_findIdx? hmethod
    have hout : entries.eraseIdx out = expandFirst (Entry.isMethodOf name) (fun _ => []) entries :=
      eraseIdx_eq_expandFirst hmethod
    -- the plain entry is the same once the method is out, at an index that may have moved
    have hindex := findIdx?_eraseIdx (fun _ => not_isMethodOf_of_isPlainOf) h hmethod
    have hstays : (entries.eraseIdx out).find? (Entry.isPlainOf name) = some plain := by
      rw [hout, find?_isPlainOf_without_method]
      exact hfind
    simp only [hmethod']
    rw [addTo_method_of_some placement hfound, ← hout]
    exact place_eq_expandFirst placement (fun e => { method with sortText := e.sortText }) hindex
      hstays

theorem addition_of_find?_eq_none {r : Request} {node : NodeId} {property : Property}
    (h : entries.find? (Entry.isPlainOf property.name) = none) :
    r.addition node entries property = .ok .nothing := by
  unfold Request.addition
  rw [h]

/-- **One step.** Completing a property makes its addition to the list. -/
theorem complete_eq (r : Request) (node : NodeId) (entries : List Entry) (property : Property) :
    r.complete node entries property = (r.addition node entries property).map
      (Addition.addTo r.settings.placement property.name entries) := by
  unfold Request.complete
  cases hindex : plainIndex? entries property.name with
  | none =>
    have hnone : entries.find? (Entry.isPlainOf property.name) = none :=
      find?_eq_none_of_findIdx? hindex
    rw [addition_of_find?_eq_none hnone]
    rfl
  | some index =>
    obtain ⟨plain, -, hfind⟩ := exists_of_findIdx? hindex
    have hplain : entries.find? (Entry.isPlainOf property.name) = some plain := hfind
    unfold Request.addition
    rw [hplain]
    cases r.oracle.propertyTypeAt property node with
    | none => rfl
    | some type =>
      by_cases hfunction : r.oracle.isFunction type = true
      · simp only [hfunction, if_true, placeMethod_eq _ hindex]
        cases r.preferences.methodSnippets <;> rfl
      · simp only [hfunction]
        cases r.settings.offerValues with
        | false => rfl
        | true =>
          simp only [if_true, placeValue_eq _ _ hindex]
          cases hsnippet : snippetFor? r.tree r.preferences r.settings (r.oracle.shape type) with
          | error fault => rfl
          | ok snippet? => cases snippet? <;> rfl

end Additions

end Assist.Completion
