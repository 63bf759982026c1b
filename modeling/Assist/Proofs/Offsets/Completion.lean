import Assist.Proofs.Completion.Placing
import Assist.Proofs.Offsets.Tree

/-!
# Completion by index

Completing a property finds indices in a list of entries, takes an entry out and puts another one
in. The index of the plain entry is one of the list, also after the entry of the method is taken out
of it, so all of this succeeds (`placeMethod_ok`, `placeValue_ok`). The levels of unions inside
unions are counted up to a limit, which never overflows (`callableFrom_eq`, `allFrom_eq`). On an
aligned tree a list is completed without a fault (`extend_ok`).
-/

namespace Assist.Offsets

open Assist.Text Assist.Syntax Assist.Types Assist.Completion

/-! ## Shapes of types -/

/-- The deepest level of unions inside unions that is followed. -/
def unionLimit : UInt32 := UInt32.ofNat maxUnionDepth

/-- Whether a type at level `depth` can be called, or has such a member. -/
def callableFrom (o : Oracle) (depth : UInt32) (ty : TypeId) : Except Fault Bool :=
  if 0 < (o.info ty).calls then return true
  else if _ : depth < unionLimit then
    ((o.info ty).members.getD []).anyM fun member =>
      nextLevel depth fun next _ => callableFrom o next member
  else return false
termination_by unionLimit.toNat - depth.toNat
decreasing_by
  have := levels_of_add_one ‹depth < unionLimit› ‹_›
  omega

/-- Whether a type at level `depth` is of a kind that `verdict` decides, or all of its defined
members are. -/
def allFrom (o : Oracle) (verdict : TypeInfo → Option Bool) (depth : UInt32) (ty : TypeId) :
    Except Fault Bool :=
  match verdict (o.info ty) with
  | some answer => return answer
  | none =>
    if _ : depth < unionLimit then
      if (o.definedMembers ty).isEmpty then return false
      else (o.definedMembers ty).allM fun member =>
        nextLevel depth fun next _ => allFrom o verdict next member
    else return false
termination_by unionLimit.toNat - depth.toNat
decreasing_by
  have := levels_of_add_one ‹depth < unionLimit› ‹_›
  omega

section Levels

variable (o : Oracle)

theorem callableFrom_eq (depth : UInt32) (ty : TypeId) :
    callableFrom o depth ty =
      .ok (o.callableWithin (unionLimit.toNat - depth.toNat) ty) := by
  induction hsteps : unionLimit.toNat - depth.toNat generalizing depth ty with
  | zero =>
    have hlt : ¬depth < unionLimit := fun h => by
      have := UInt32.lt_iff_toNat_lt.mp h
      omega
    rw [callableFrom, dif_neg hlt, Oracle.callableWithin]
    by_cases hcalls : 0 < (o.info ty).calls <;> simp [hcalls]
  | succ steps ih =>
    have hlt : depth < unionLimit := UInt32.lt_iff_toNat_lt.mpr (by omega)
    have hlevels := levels_of_add_one hlt (add_one_of_lt hlt)
    rw [callableFrom, dif_pos hlt, Oracle.callableWithin]
    by_cases hcalls : 0 < (o.info ty).calls
    · simp [hcalls]
    · rw [if_neg hcalls, decide_eq_false hcalls, Bool.false_or]
      refine Eq.trans (congrArg (List.anyM · _) (funext fun member => ?_)) List.anyM_pure
      exact (nextLevel_of_lt hlt _).trans (ih (depth + 1) member (by omega))

theorem allFrom_eq (verdict : TypeInfo → Option Bool) (depth : UInt32) (ty : TypeId) :
    allFrom o verdict depth ty =
      .ok (o.allWithin verdict (unionLimit.toNat - depth.toNat) ty) := by
  induction hsteps : unionLimit.toNat - depth.toNat generalizing depth ty with
  | zero =>
    have hlt : ¬depth < unionLimit := fun h => by
      have := UInt32.lt_iff_toNat_lt.mp h
      omega
    rw [allFrom, Oracle.allWithin]
    cases verdict (o.info ty) with
    | some answer => rfl
    | none =>
      simp only [dif_neg hlt]
      rfl
  | succ steps ih =>
    have hlt : depth < unionLimit := UInt32.lt_iff_toNat_lt.mpr (by omega)
    have hlevels := levels_of_add_one hlt (add_one_of_lt hlt)
    rw [allFrom, Oracle.allWithin]
    cases verdict (o.info ty) with
    | some answer => rfl
    | none =>
      simp only [dif_pos hlt]
      cases (o.definedMembers ty).isEmpty with
      | true => rfl
      | false =>
        refine Eq.trans (congrArg (List.allM · _) (funext fun member => ?_)) List.allM_pure
        exact (nextLevel_of_lt hlt _).trans (ih (depth + 1) member (by omega))

/-- Whether a type can be called, or is a union with a member that can. -/
def isFunction (ty : TypeId) : Except Fault Bool := callableFrom o 0 ty

theorem isFunction_eq (ty : TypeId) : isFunction o ty = .ok (o.isFunction ty) :=
  callableFrom_eq o 0 ty

/-- Whether a type is of a kind, or a union of types of that kind. -/
def isAll (verdict : TypeInfo → Option Bool) (ty : TypeId) : Except Fault Bool :=
  allFrom o verdict 0 ty

theorem isAll_eq (verdict : TypeInfo → Option Bool) (ty : TypeId) :
    isAll o verdict ty = .ok (o.allWithin verdict maxUnionDepth ty) :=
  allFrom_eq o verdict 0 ty

/-- The shape of a type. -/
def shape (ty : TypeId) : Except Fault ValueShape := do
  if (o.info ty).isUndefined then return .none
  else if ← isFunction o ty then return .function
  else if ← isAll o Oracle.stringVerdict ty then return .string
  else if ← isAll o Oracle.booleanVerdict ty then return .boolean
  else if ← isAll o Oracle.arrayVerdict ty then return .array
  else if ← isAll o Oracle.plainObjectVerdict ty then return .plainObject
  else return .none

theorem shape_ok (ty : TypeId) : shape o ty = .ok (o.shape ty) := by
  simp only [shape, isFunction_eq, isAll_eq, ok_bind, pure_eq_ok, ← apply_ite Except.ok]
  rfl

/-- Whether a type has properties that an object literal can be completed with. -/
def contributes (ty : TypeId) : Except Fault Bool := do
  if ← isFunction o ty then return false
  else isAll o Oracle.plainObjectVerdict ty

theorem contributes_ok (ty : TypeId) : contributes o ty = .ok (o.contributes ty) := by
  simp only [contributes, Oracle.contributes, isFunction_eq, isAll_eq, ok_bind]
  cases o.isFunction ty <;> rfl

/-- The properties that an object literal of a type can be completed with. -/
def completableProperties (ty : TypeId) : Except Fault (List Property) := do
  let contributing ← ((o.info ty).members.getD [ty]).filterM (contributes o)
  let properties := contributing.flatMap fun member => (o.info member).properties
  if contributing.length ≤ 1 then return properties
  else return properties.filter fun property =>
    properties.countP (fun other => other.name == property.name) ≤ 1

theorem completableProperties_eq (ty : TypeId) :
    completableProperties o ty = .ok (o.completableProperties ty) := by
  simp only [completableProperties, Oracle.completableProperties, filterM_ok (contributes_ok o),
    ok_bind, pure_eq_ok, ← apply_ite Except.ok]

end Levels

/-! ## Places in a list -/

section Placing

variable {entries : List Entry} {index : Nat} {name : String}

/-- Put `entry` beside the entry at `index`, or in its place. -/
def place (placement : Placement) (entries : List Entry) (index : Nat) (entry : Entry) :
    Except Fault (List Entry) :=
  match placement with
  | .above => insertAt entries index entry
  | .below => insertAt entries (index + 1) entry
  | .remove => replaceAt entries index entry

theorem place_eq (placement : Placement) (entry : Entry) (h : index < entries.length) :
    place placement entries index entry =
      .ok (Completion.place placement entries index entry) := by
  cases placement with
  | above => exact if_pos (Nat.le_of_lt h)
  | below => exact if_pos (Nat.succ_le_of_lt h)
  | remove => exact if_pos h

/-- Where the entry at `index` is once the one at `out` is taken out. -/
def indexWithout (out index : Nat) : Except Fault Nat :=
  if out < index then less index 1 else return index

theorem indexWithout_eq (out index : Nat) :
    indexWithout out index = .ok (if out < index then index - 1 else index) := by
  unfold indexWithout
  split
  · exact less_of_le (by omega)
  · rfl

/-- Move the entry that inserts a method next to the plain entry at `index`, under its sort key. -/
def placeMethod (placement : Placement) (entries : List Entry) (index : Nat) :
    Except Fault (List Entry) := do
  let name := (← item entries index).name
  match methodIndex? entries name with
  | none => return entries
  | some methodIndex =>
    let method ← item entries methodIndex
    let rest ← removeAt entries methodIndex
    let index ← indexWithout methodIndex index
    let plain ← item rest index
    place placement rest index { method with sortText := plain.sortText }

/-- The place of an entry once another one is taken out of the list. -/
theorem getElem?_eraseIdx_moved {out : Nat} (hne : out ≠ index) :
    (entries.eraseIdx out)[if out < index then index - 1 else index]? = entries[index]? := by
  rw [List.getElem?_eraseIdx]
  split
  · rename_i hlt
    rw [if_neg (by omega), Nat.sub_add_cancel (by omega)]
  · rw [if_pos (by omega)]

/-- The plain entry is still there when the method is taken out. -/
theorem placeMethod_ok (placement : Placement) (h : plainIndex? entries name = some index) :
    placeMethod placement entries index =
      .ok (Completion.placeMethod placement entries index) := by
  obtain ⟨plain, hplain, hfind⟩ := exists_of_findIdx? h
  have hkind := Entry.isPlainOf_iff.mp (List.find?_some hfind)
  rw [placeMethod, Completion.placeMethod, item_of_getElem? hplain, ok_bind, hplain]
  simp only
  cases hmethod : methodIndex? entries plain.name with
  | none => rfl
  | some out =>
    obtain ⟨method, hget, hfound⟩ := exists_of_findIdx? hmethod
    have hmethodKind := Entry.isMethodOf_iff.mp (List.find?_some hfound)
    have hne : out ≠ index := by
      rintro rfl
      rw [hget, Option.some.injEq] at hplain
      rw [← hplain, hmethodKind.2] at hkind
      exact Bool.noConfusion hkind.2
    have hmoved := (getElem?_eraseIdx_moved hne).trans hplain
    have hremove : removeAt entries out = .ok (entries.eraseIdx out) :=
      if_pos (List.getElem?_eq_some_iff.mp hget).1
    simp only [item_of_getElem? hget, hget, hremove, indexWithout_eq, ok_bind,
      item_of_getElem? hmoved]
    exact place_eq placement _ (List.getElem?_eq_some_iff.mp hmoved).1

/-- Put the entry with a value beside the plain entry at `index`. -/
def placeValue (placement : Placement) (entries : List Entry) (index : Nat) (snippet : Snippet) :
    Except Fault (List Entry) := do
  place placement entries index ((← item entries index).withValue snippet)

theorem placeValue_ok (placement : Placement) (snippet : Snippet)
    (h : plainIndex? entries name = some index) :
    placeValue placement entries index snippet =
      .ok (Completion.placeValue placement entries index snippet) := by
  obtain ⟨plain, hplain, -⟩ := exists_of_findIdx? h
  rw [placeValue, Completion.placeValue, item_of_getElem? hplain, ok_bind, hplain]
  exact place_eq placement _ (List.getElem?_eq_some_iff.mp hplain).1

end Placing

/-! ## Values -/

/-- The quote of the first string literal of a file, if there is one. -/
def quoteOfFile? (tree : Tree) : Except Fault (Option Char) :=
  match tree.first? fun n => tree.kind n == .stringLiteral with
  | none => return none
  | some n => do
    let text ← textOf tree n
    return some (if text.toList.head? == some '\x27' then '\x27' else '"')

/-- The quote for strings that the library writes. -/
def quoteFor (tree : Tree) (preferences : Preferences) : Except Fault Char :=
  match preferences.quotes with
  | .single => return '\x27'
  | .double => return '"'
  | .auto => do return (← quoteOfFile? tree).getD '"'

/-- The value offered for a type that is not a function. Only a string needs the file. -/
def snippetFor? (tree : Tree) (preferences : Preferences) (settings : Settings) :
    ValueShape → Except Fault (Option Snippet)
  | .string => do
    let quote := (← quoteFor tree preferences).toString
    return some ⟨": " ++ quote ++ "$1" ++ quote ++ ",$0", ": " ++ quote ++ quote ++ ","⟩
  | shape => Completion.snippetFor? tree preferences settings shape

section Values

variable {tree : Tree} (preferences : Preferences) (settings : Settings)

theorem quoteOfFile?_eq : quoteOfFile? tree = Completion.quoteOfFile? tree := by
  simp only [quoteOfFile?, Completion.quoteOfFile?, textOf_eq]
  rfl

theorem snippetFor?_eq (shape : ValueShape) :
    snippetFor? tree preferences settings shape =
      Completion.snippetFor? tree preferences settings shape := by
  have hquote : quoteFor tree preferences = Completion.quoteFor tree preferences := by
    rw [quoteFor, Completion.quoteFor, quoteOfFile?_eq]
    rfl
  cases shape with
  | string => rw [snippetFor?, Completion.snippetFor?, hquote]
  | _ => rfl

theorem exists_quoteFor (h : tree.Aligned) :
    ∃ quote, Completion.quoteFor tree preferences = .ok quote := by
  unfold Completion.quoteFor
  split
  · exact ⟨_, rfl⟩
  · exact ⟨_, rfl⟩
  · unfold Completion.quoteOfFile?
    split
    · exact ⟨_, rfl⟩
    · rename_i n _
      obtain ⟨text, htext⟩ := h.exists_textOf n
      rw [htext]
      exact ⟨_, rfl⟩

theorem exists_snippetFor? (h : tree.Aligned) (shape : ValueShape) :
    ∃ snippet, Completion.snippetFor? tree preferences settings shape = .ok snippet := by
  cases shape with
  | string =>
    obtain ⟨quote, hquote⟩ := exists_quoteFor preferences h
    rw [Completion.snippetFor?, hquote]
    exact ⟨_, rfl⟩
  | _ => exact ⟨_, rfl⟩

end Values

/-! ## Completing a list -/

/-- The object literal in which the name of a property is being completed. -/
def literal? (r : Request) : OptionT (Except Fault) NodeId := do
  guard (r.position ≠ 0)
  let node ← OptionT.mk (innermost? r.tree (r.position - 1))
  let node ← found (if (r.tree.kind node).isIdentifier then r.tree.parent? node else some node)
  let node ← found (if r.tree.kind node == .shorthandPropertyAssignment then r.tree.parent? node
    else some node)
  guard (r.tree.kind node == .objectLiteralExpression)
  guard (byteAt? r.tree.source r.position.toNat != some 0x3A)
  return node

/-- The list once the entries of one property are in it. -/
def complete (r : Request) (node : NodeId) (entries : List Entry) (property : Property) :
    Except Fault (List Entry) :=
  match plainIndex? entries property.name, r.oracle.propertyTypeAt property node with
  | some index, some type => do
    if ← isFunction r.oracle type then
      if r.preferences.methodSnippets then placeMethod r.settings.placement entries index
      else return entries
    else if r.settings.offerValues then
      match ← snippetFor? r.tree r.preferences r.settings (← shape r.oracle type) with
      | some snippet => placeValue r.settings.placement entries index snippet
      | none => return entries
    else return entries
  | _, _ => return entries

/-- The list with the entries of every property, or `none` where the list of the host stays. -/
def extend (r : Request) (entries : List Entry) : Except Fault (Option (List Entry)) :=
  if entries.isEmpty || !r.isActive then return none
  else do
    match ← (literal? r).run with
    | none => return none
    | some node =>
      match r.oracle.expectedType node with
      | none => return none
      | some expected =>
        let properties ← completableProperties r.oracle expected
        return some (← properties.foldlM (complete r node) entries)

section Lists

variable {r : Request}

theorem ite_bind {α β : Type} (p : Prop) [Decidable p] (x y : Option α) (f : α → Option β) :
    (if p then x else y) >>= f = if p then x >>= f else y >>= f := by
  split <;> rfl

theorem literal?_eq (r : Request) : literal? r = found r.literal? := by
  rw [Request.literal?]
  simp only [literal?, guard_eq, innermost?_eq, mk_ok, pure_eq_found, found_bind, ite_bind]
  rfl

/-- Completing a property of a literal succeeds on an aligned tree. -/
theorem complete_ok (h : r.tree.Aligned) (node : NodeId) (entries : List Entry)
    (property : Property) :
    ∃ out, complete r node entries property = .ok out ∧
      r.complete node entries property = .ok out := by
  rw [complete, Request.complete]
  cases hindex : plainIndex? entries property.name with
  | none => exact ⟨_, rfl, rfl⟩
  | some index =>
    cases r.oracle.propertyTypeAt property node with
    | none => exact ⟨_, rfl, rfl⟩
    | some type =>
      obtain ⟨snippet, hsnippet⟩ :=
        exists_snippetFor? r.preferences r.settings h (r.oracle.shape type)
      simp only [isFunction_eq, shape_ok, snippetFor?_eq, hsnippet, placeMethod_ok _ hindex,
        placeValue_ok _ _ hindex, ok_bind]
      cases r.oracle.isFunction type with
      | true => cases r.preferences.methodSnippets <;> exact ⟨_, rfl, rfl⟩
      | false =>
        cases r.settings.offerValues with
        | true => cases snippet <;> exact ⟨_, rfl, rfl⟩
        | false => exact ⟨_, rfl, rfl⟩

/-- A fold whose steps succeed. -/
theorem foldlM_ok {f g : List Entry → Property → Except Fault (List Entry)}
    (h : ∀ entries property, ∃ out, f entries property = .ok out ∧ g entries property = .ok out)
    (properties : List Property) (entries : List Entry) :
    ∃ out, properties.foldlM f entries = .ok out ∧ properties.foldlM g entries = .ok out := by
  induction properties generalizing entries with
  | nil => exact ⟨entries, rfl, rfl⟩
  | cons property properties ih =>
    obtain ⟨next, hf, hg⟩ := h entries property
    rw [List.foldlM_cons, List.foldlM_cons, hf, hg]
    exact ih next

/-- On an aligned tree a list is completed without a fault, as the library completes it. -/
theorem extend_ok (h : r.tree.Aligned) (entries : List Entry) :
    ∃ out, extend r entries = .ok out ∧ r.extend entries = .ok out := by
  unfold extend Request.extend
  split
  · exact ⟨_, rfl, rfl⟩
  · rw [literal?_eq, run_found, ok_bind]
    cases r.literal? with
    | none => exact ⟨_, rfl, rfl⟩
    | some node =>
      simp only
      cases r.oracle.expectedType node with
      | none => exact ⟨_, rfl, rfl⟩
      | some expected =>
        obtain ⟨out, hout, hout'⟩ := foldlM_ok (complete_ok h node)
          (r.oracle.completableProperties expected) entries
        simp only [completableProperties_eq, ok_bind, hout, hout']
        exact ⟨_, rfl, rfl⟩

end Lists

end Assist.Offsets
