import Assist.Completion.Snippet
import Assist.Proofs.Syntax.StackWalk

/-!
# What is read off a file

Two things are read off a whole file: the names in use, which are collected, and the quote of the
first string literal, where the search ends. A loop over a stack does either (`collectNames`,
`findQuote`). On a tree that was built bottom-up over boundaries of the text both loops end, and
with what the library has without them (`scans_end`): the names in use are the texts of the
identifiers that can be reached from the root, and the quote is that of the first literal in
recursive preorder.
-/

namespace Assist.Completion

open Assist.Syntax

variable {tree : Tree} {nodes : List NodeId}

/-! ## Names -/

/-- Put the text of an identifier into the set of names. -/
def addName (tree : Tree) (n : NodeId) (names : List String) :
    Except Fault (ForInStep (List String)) :=
  if (tree.kind n).isIdentifier then do return .yield (names.insert (← tree.textOf n))
  else return .yield names

/-- The names in use, collected with a stack on which the last child of a node comes on top. -/
def collectNames (tree : Tree) (rounds : Nat) : Option (Except Fault (List String)) :=
  stackLoop (fun n => (tree.children n).reverse) (addName tree) rounds tree.root.toList []

/-- The names that are collected are those that were there before and the texts of identifiers. -/
theorem exists_forIn_addName (haligned : tree.Aligned) (nodes : List NodeId)
    (names : List String) : ∃ found, forIn nodes names (addName tree) = .ok found ∧
      ∀ name, name ∈ found ↔ name ∈ names ∨
        ∃ n ∈ nodes, (tree.kind n).isIdentifier = true ∧ tree.textOf n = .ok name := by
  induction nodes generalizing names with
  | nil => exact ⟨names, rfl, fun name => by simp⟩
  | cons n nodes ih =>
    obtain ⟨text, htext⟩ := haligned.exists_textOf n
    rw [List.forIn_cons, addName]
    by_cases hkind : (tree.kind n).isIdentifier = true
    · obtain ⟨found, hfound, hmem⟩ := ih (names.insert text)
      refine ⟨found, ?_, fun name => ?_⟩
      · rw [if_pos hkind, htext]
        exact hfound
      · have hname : tree.textOf n = .ok name ↔ name = text := by
          rw [htext, Except.ok.injEq, eq_comm]
        simp only [hmem, List.mem_insert_iff, List.mem_cons, exists_eq_or_imp, hkind, hname,
          true_and]
        exact or_assoc.trans or_left_comm
    · obtain ⟨found, hfound, hmem⟩ := ih names
      refine ⟨found, ?_, fun name => ?_⟩
      · rw [if_neg hkind]
        exact hfound
      · simp only [hmem, List.mem_cons, exists_eq_or_imp, hkind, Bool.false_eq_true, false_and,
          false_or]

/-! ## Quotes -/

/-- The quote of a literal, told by the first character of its text. -/
def quoteOfText (text : String) : Char := if text.toList.head? == some '\x27' then '\x27' else '"'

/-- Stop at a string literal, with its quote. -/
def stopAtLiteral (tree : Tree) (n : NodeId) (quote : Option Char) :
    Except Fault (ForInStep (Option Char)) :=
  if tree.kind n == .stringLiteral then do return .done (some (quoteOfText (← tree.textOf n)))
  else return .yield quote

/-- The quote of the first string literal, found with a stack on which the first child of a node
comes on top. -/
def findQuote (tree : Tree) (rounds : Nat) : Option (Except Fault (Option Char)) :=
  stackLoop tree.children (stopAtLiteral tree) rounds tree.root.toList none

/-- Stopping at the first literal of the walk finds the quote of a file, on any tree. -/
theorem forIn_stopAtLiteral (tree : Tree) :
    forIn tree.walk none (stopAtLiteral tree) = quoteOfFile? tree := by
  rw [quoteOfFile?, Tree.first?_eq]
  induction tree.walk with
  | nil => rfl
  | cons n nodes ih =>
    rw [List.forIn_cons, stopAtLiteral, List.find?_cons]
    cases hkind : tree.kind n == .stringLiteral with
    | false => exact ih
    | true =>
      rw [if_pos rfl]
      dsimp only
      cases tree.textOf n <;> rfl

/-- The quote that a file decides: that of its first literal, or else a double quote. -/
theorem exists_quote (haligned : tree.Aligned) :
    ∃ found, quoteOfFile? tree = .ok found ∧
      match tree.walk.find? fun n => tree.kind n == .stringLiteral with
      | none => found = none
      | some n => ∃ text, tree.textOf n = .ok text ∧ found = some (quoteOfText text) := by
  rw [quoteOfFile?, Tree.first?_eq]
  cases tree.walk.find? fun n => tree.kind n == .stringLiteral with
  | none => exact ⟨none, rfl, rfl⟩
  | some n =>
    obtain ⟨text, htext⟩ := haligned.exists_textOf n
    refine ⟨some (quoteOfText text), ?_, text, htext, rfl⟩
    dsimp only
    rw [htext]
    rfl

/-! ## Both scans -/

/-- **Scans of a file end.** In a tree that was built bottom-up over boundaries of the text, with
children shared or not, the loop that collects names ends with exactly the texts of the identifiers
that can be reached from the root, and these are the names in use. The loop that looks for a quote
ends with that of the first string literal in recursive preorder, or with none if there is no
literal; and a user who wants no quote in particular gets that one, or else a double quote. -/
theorem scans_end {source : String} {additions : List Addition} {tree : Tree}
    (htree : tree = build source additions) (hfirst : ChildrenFirst additions)
    (haligned : tree.Aligned) {preferences : Preferences} (hauto : preferences.quotes = .auto) :
    (∃ names used, EndsWith (collectNames tree) (.ok names) ∧ tree.usedNames = .ok used ∧
      ∀ name, (name ∈ names ↔ tree.HasIdentifier name) ∧ (name ∈ used ↔ tree.HasIdentifier name)) ∧
    ∃ nodes found quote, Preorder tree.children tree.root.toList nodes ∧
      EndsWith (findQuote tree) (.ok found) ∧ quoteFor tree preferences = .ok quote ∧
      match nodes.find? fun n => tree.kind n == .stringLiteral with
      | none => found = none ∧ quote = '"'
      | some n => ∃ text, tree.textOf n = .ok text ∧ found = some quote ∧
          quote = quoteOfText text := by
  have hchildren : ∀ {n c}, c ∈ tree.children n → c.index < n.index := by
    rintro n c hc
    rw [htree] at hc
    exact Tree.index_lt_of_childrenFirst hfirst hc
  constructor
  · obtain ⟨nodes, hnodes⟩ := exists_preorder
      (fun n c hc => hchildren (List.mem_reverse.mp hc)) tree.root.toList
    obtain ⟨names, hnames, hmem⟩ := exists_forIn_addName haligned nodes []
    obtain ⟨used, hused⟩ := haligned.exists_usedNames
    refine ⟨names, used, ?_, hused, fun name => ⟨?_, Tree.mem_usedNames_iff hused⟩⟩
    · rw [← hnames]
      exact endsWith_stackLoop hnodes []
    · rw [hmem, Tree.HasIdentifier]
      simp only [List.not_mem_nil, false_or, Tree.mem_preorder_iff List.mem_reverse hnodes,
        Tree.isIdentifier_iff]
  · have hwalk := Tree.preorder_walk hchildren
    obtain ⟨found, hfound, hdecides⟩ := exists_quote haligned
    refine ⟨tree.walk, found, found.getD '"', hwalk, ?_, ?_, ?_⟩
    · rw [← hfound, ← forIn_stopAtLiteral]
      exact endsWith_stackLoop hwalk none
    · rw [quoteFor, hauto, hfound]
      rfl
    · cases hfind : tree.walk.find? fun n => tree.kind n == .stringLiteral with
      | none =>
        rw [hfind] at hdecides
        exact ⟨hdecides, by rw [hdecides]; rfl⟩
      | some n =>
        rw [hfind] at hdecides
        obtain ⟨text, htext, rfl⟩ := hdecides
        exact ⟨text, htext, rfl, rfl⟩

/-- A call of `a` with a literal and with itself. The call shares the name of the function with its
argument and the literal with the statement, and the file lists the statement twice. -/
def sharedAdditions : List Addition :=
  [.token .identifier 0 1, .token .stringLiteral 2 6,
    .node .callExpression 0 10 [⟨0⟩, ⟨1⟩, ⟨0⟩], .node .expressionStatement 0 10 [⟨2⟩, ⟨1⟩],
    .file [⟨3⟩, ⟨3⟩]]

/-- The tree over that call. -/
def sharedTree : Tree := build "a(\x27é\x27, a)" sharedAdditions

theorem scans_end_shared :
    ∃ names, EndsWith (collectNames sharedTree) (.ok names) ∧
      (∀ name, name ∈ names ↔ name = "a") ∧
      EndsWith (findQuote sharedTree) (.ok (some '\x27')) := by
  have haligned : sharedTree.Aligned := ⟨by decide +kernel, by decide +kernel⟩
  have hauto : (⟨false, .auto⟩ : Preferences).quotes = .auto := rfl
  obtain ⟨⟨names, used, hnames, hused, hmem⟩, nodes, found, quote, -, hquote, hfor, hfirst⟩ :=
    scans_end rfl (by decide) haligned hauto
  refine ⟨names, hnames, fun name => ?_, ?_⟩
  · have hfour : sharedTree.usedNames = .ok ["a", "a", "a", "a"] := by decide +kernel
    obtain rfl := Except.ok.inj (hfour.symm.trans hused)
    rw [(hmem name).1, ← (hmem name).2]
    simp
  · have hsingle : quoteFor sharedTree ⟨false, .auto⟩ = .ok '\x27' := by decide +kernel
    obtain rfl := Except.ok.inj (hsingle.symm.trans hfor)
    split at hfirst
    · exact absurd hfirst.2 (by decide)
    · obtain ⟨text, -, rfl, -⟩ := hfirst
      exact hquote

end Assist.Completion
