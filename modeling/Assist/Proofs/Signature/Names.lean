import Assist.Proofs.Text.Trim
import Assist.Signature.Parser
import Assist.Signature.Printer
import Mathlib.Data.Option.Basic

/-!
# Plain names

A parameter that is read from a text has a plain name or a pattern, and a plain name consists of
name characters (`isName_of_ofText?`). So it ends where the first other character stands
(`IsName.append_inj`), and the names of an object pattern can be read off its text
(`objectPattern_inj`).
-/

namespace Assist.Signature

open Assist.Text

/-- A name of one or more name characters. -/
def IsName (name : String) : Prop :=
  name.toList ≠ [] ∧ ∀ c ∈ name.toList, isNameChar c = true

instance (name : String) : Decidable (IsName name) :=
  decidable_of_iff (name.toList ≠ [] ∧ name.toList.all isNameChar = true)
    (by rw [IsName, List.all_eq_true])

theorem IsName.not_mem {name : String} (h : IsName name) {c : Char} (hc : isNameChar c = false) :
    c ∉ name.toList := by
  intro hmem
  rw [h.2 c hmem] at hc
  cases hc

/-- A name ends at the first character that is not one of names. -/
theorem IsName.append_inj {name name' : String} (h : IsName name) (h' : IsName name') {c c' : Char}
    (hc : isNameChar c = false) (hc' : isNameChar c' = false) {rest rest' : List Char}
    (heq : name.toList ++ c :: rest = name'.toList ++ c' :: rest') :
    name = name' ∧ c = c' ∧ rest = rest' := by
  have hfront : ∀ {n : String}, IsName n → ∀ {d : Char} (_ : isNameChar d = false) (cs : List Char),
      (n.toList ++ d :: cs).takeWhile isNameChar = n.toList := by
    intro n hn d hd cs
    rw [List.takeWhile_append_of_pos hn.2, List.takeWhile_cons_of_neg (by simp [hd]),
      List.append_nil]
  have hname : name.toList = name'.toList := by
    rw [← hfront h hc rest, heq, hfront h' hc' rest']
  rw [hname] at heq
  obtain ⟨hchar, hrest⟩ := List.cons.inj (List.append_cancel_left heq)
  exact ⟨String.toList_inj.mp hname, hchar, hrest⟩

/-! ## The names that are read -/

theorem isName_of_takeName? {cs rest : List Char} {name : String}
    (h : takeName? cs = some (name, rest)) : IsName name := by
  unfold takeName? at h
  split at h
  · cases h
  · rename_i hne
    obtain ⟨rfl, -⟩ := Prod.mk.inj (Option.some.inj h)
    rw [IsName, String.toList_ofList]
    exact ⟨hne, List.all_eq_true.mp List.all_takeWhile⟩

theorem isName_of_takeBinding? {cs rest : List Char} {name : String}
    (h : takeBinding? cs = some (.identifier name, rest)) : IsName name := by
  unfold takeBinding? at h
  split at h
  · obtain ⟨close, -, heq⟩ := Option.bind_eq_some_iff.mp h
    cases heq
  · obtain ⟨close, -, heq⟩ := Option.bind_eq_some_iff.mp h
    cases heq
  · obtain ⟨⟨taken, after⟩, htaken, heq⟩ := Option.map_eq_some_iff.mp h
    obtain ⟨hname, -⟩ := Prod.mk.inj heq
    cases hname
    exact isName_of_takeName? htaken

theorem isName_of_readParameter? {text : List Char} {p : Parameter} {name : String}
    (h : readParameter? text = some p) (hname : p.name = .identifier name) : IsName name := by
  simp only [readParameter?, Option.bind_eq_bind, Option.bind_eq_some_iff, Option.pure_def,
    Option.some.injEq] at h
  obtain ⟨⟨binding, after⟩, hbinding, type, -, rfl⟩ := h
  dsimp only at hname
  subst hname
  exact isName_of_takeBinding? hbinding

/-- What is collected from a list comes from its elements. -/
theorem exists_of_mem_mapM {α β : Type} {f : α → Option β} {l : List α} {r : List β}
    (h : l.mapM f = some r) {b : β} (hb : b ∈ r) : ∃ a ∈ l, f a = some b := by
  induction l generalizing r with
  | nil =>
    cases h
    exact absurd hb List.not_mem_nil
  | cons a l ih =>
    rw [List.mapM_cons] at h
    simp only [Option.bind_eq_bind, Option.bind_eq_some_iff, Option.pure_def,
      Option.some.injEq] at h
    obtain ⟨first, hfirst, others, hothers, rfl⟩ := h
    rcases List.mem_cons.mp hb with rfl | hb
    · exact ⟨a, List.mem_cons_self, hfirst⟩
    · obtain ⟨a', ha', hfa'⟩ := ih hothers hb
      exact ⟨a', List.mem_cons_of_mem a ha', hfa'⟩

/-- The plain names of the parameters of a declaration that was read are names. -/
theorem isName_of_ofText? {text : String} {decl : FunctionDecl}
    (h : FunctionDecl.ofText? text = some decl) {p : Parameter} (hp : p ∈ decl.parameters)
    {name : String} (hname : p.name = .identifier name) : IsName name := by
  simp only [FunctionDecl.ofText?, FunctionDecl.ofChars?, Option.bind_eq_bind,
    Option.bind_eq_some_iff, Option.pure_def, Option.some.injEq] at h
  obtain ⟨_, -, ⟨_, _⟩, -, ⟨_, _⟩, -, ⟨parameters, after⟩, hparameters, _, -, rfl⟩ := h
  simp only [takeParameters?, Option.bind_eq_bind, Option.bind_eq_some_iff, Option.pure_def,
    Option.some.injEq] at hparameters
  obtain ⟨_, -, _, -, read, hread, heq⟩ := hparameters
  obtain ⟨rfl, -⟩ := Prod.mk.inj heq
  obtain ⟨piece, -, hpiece⟩ := exists_of_mem_mapM hread hp
  exact isName_of_readParameter? hpiece hname

/-! ## Object patterns -/

/-- The object pattern that binds the given names. -/
def objectPattern (names : List String) : Binding := .object (names.map fun name => ⟨none, name⟩)

theorem toList_objectPattern_cons (name : String) (names : List String) :
    (objectPattern (name :: names)).print.toList =
      '{' :: ' ' :: ((", ".intercalate (name :: names)).toList ++ [' ', '}']) := by
  have helements : (name :: names).map (fun n => PatternElement.print ⟨none, n⟩) = name :: names :=
    List.map_id _
  have hprint : (objectPattern (name :: names)).print =
      "\x7b " ++ ", ".intercalate ((name :: names).map fun n => PatternElement.print ⟨none, n⟩)
        ++ " \x7d" := by
    simp [objectPattern, Binding.print, Function.comp_def]
  rw [hprint, helements]
  simp

theorem toList_intercalate_singleton (name : String) : (", ".intercalate [name]).toList =
    name.toList := by
  simp

theorem toList_intercalate_cons (name next : String) (names : List String) :
    (", ".intercalate (name :: next :: names)).toList =
      name.toList ++ ',' :: ' ' :: (", ".intercalate (next :: names)).toList := by
  simp [String.toList_intercalate, List.intercalate]

/-- Names between commas can be read off a text in which a blank follows the last of them. -/
theorem intercalate_inj {names names' : List String} {name name' : String}
    (h : ∀ n ∈ name :: names, IsName n) (h' : ∀ n ∈ name' :: names', IsName n)
    {rest rest' : List Char}
    (heq : (", ".intercalate (name :: names)).toList ++ ' ' :: rest =
      (", ".intercalate (name' :: names')).toList ++ ' ' :: rest') :
    name :: names = name' :: names' := by
  obtain ⟨hname, hnames⟩ := List.forall_mem_cons.mp h
  obtain ⟨hname', hnames'⟩ := List.forall_mem_cons.mp h'
  have hcomma : isNameChar ',' = false := by decide
  have hblank : isNameChar ' ' = false := by decide
  induction names generalizing name name' names' with
  | nil =>
    cases names' with
    | nil =>
      rw [toList_intercalate_singleton, toList_intercalate_singleton] at heq
      rw [(hname.append_inj hname' hblank hblank heq).1]
    | cons next' names' =>
      rw [toList_intercalate_singleton, toList_intercalate_cons, List.append_assoc] at heq
      exact absurd (hname.append_inj hname' hblank hcomma heq).2.1 (by decide)
  | cons next names ih =>
    cases names' with
    | nil =>
      rw [toList_intercalate_singleton, toList_intercalate_cons, List.append_assoc] at heq
      exact absurd (hname.append_inj hname' hcomma hblank heq).2.1 (by decide)
    | cons next' names' =>
      rw [toList_intercalate_cons, toList_intercalate_cons, List.append_assoc,
        List.append_assoc] at heq
      obtain ⟨rfl, -, hrest⟩ := hname.append_inj hname' hcomma hcomma heq
      have hnext := (List.forall_mem_cons.mp hnames)
      have hnext' := (List.forall_mem_cons.mp hnames')
      rw [ih hnames hnames' (List.cons.inj hrest).2 hnext.1 hnext.2 hnext'.1 hnext'.2]

/-- The names of an object pattern can be read off a text that starts with it. -/
theorem objectPattern_inj {names names' : List String} (h : ∀ n ∈ names, IsName n)
    (h' : ∀ n ∈ names', IsName n) {rest rest' : List Char}
    (heq : (objectPattern names).print.toList ++ rest =
      (objectPattern names').print.toList ++ rest') : names = names' := by
  have hempty : (objectPattern []).print.toList = ['{', '}'] := by decide
  cases names with
  | nil =>
    cases names' with
    | nil => rfl
    | cons name' names' =>
      rw [hempty, toList_objectPattern_cons] at heq
      cases heq
  | cons name names =>
    cases names' with
    | nil =>
      rw [hempty, toList_objectPattern_cons] at heq
      cases heq
    | cons name' names' =>
      rw [toList_objectPattern_cons, toList_objectPattern_cons, List.cons_append, List.cons_append,
        List.cons_append, List.cons_append, List.append_assoc, List.append_assoc] at heq
      exact intercalate_inj h h' (List.cons.inj (List.cons.inj heq).2).2

end Assist.Signature
