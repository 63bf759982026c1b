import Assist.Proofs.Types.Assembled
import Assist.Proofs.Types.UnionShape

/-!
# No type is of two kinds

Of the questions whether a type is a string, a boolean, an array or a plain object, at most one has
the answer yes, whatever is in the table. A content alone is of one kind (`TypeContent.kind`), and
each question asks for one kind (`tells_of_mem_kindTests`). Through unions it goes by the depth: a
union that is of two kinds has a member that is (`Tells.exclusive`). So the shape of a type does not
depend on the order in which the four questions are asked (`kinds_exclusive`).
-/

namespace Assist.Types

/-- Whether an object type is no class instance and no regular expression. -/
def ObjectContent.isPlain (shape : ObjectContent) : Bool :=
  !shape.flags.contains .ofClass && shape.symbol != some regExpName

/-- The kind of value that a content alone calls for, calls apart. -/
def TypeContent.kind : TypeContent → ValueShape
  | .intrinsic .string | .string _ | .template _ => .string
  | .intrinsic .boolean => .boolean
  | .array _ | .tuple _ => .array
  | .object shape => if shape.isPlain then .plainObject else .none
  | .function _ _ => .plainObject
  | _ => .none

/-- A verdict that holds of contents of one kind, and leaves unions to their members. -/
structure Tells (verdict : TypeInfo → Option Bool) (shape : ValueShape) : Prop
    extends ForMembers verdict where
  content : ∀ content : TypeContent, verdict content.info = some true ↔ content.kind = shape
  missing : verdict .empty ≠ some true

namespace Oracle

/-- The four kinds with their verdicts, in the order in which they are asked for. -/
def kindTests : List (ValueShape × (TypeInfo → Option Bool)) :=
  [(.string, stringVerdict), (.boolean, booleanVerdict), (.array, arrayVerdict),
    (.plainObject, plainObjectVerdict)]

/-- The shape of a type when the kinds are asked for in the given order. -/
def shapeBy (o : Oracle) (tests : List (ValueShape × (TypeInfo → Option Bool))) (ty : TypeId) :
    ValueShape :=
  if (o.info ty).isUndefined then .none
  else if o.isFunction ty then .function
  else ((tests.find? fun test => o.allWithin test.2 maxUnionDepth ty).map Prod.fst).getD .none

theorem shape_eq_shapeBy (o : Oracle) (ty : TypeId) : o.shape ty = o.shapeBy kindTests ty := by
  unfold shape shapeBy isString isBoolean isArray isPlainObject kindTests
  congr 2
  simp only [List.find?_cons, List.find?_nil]
  cases o.allWithin stringVerdict maxUnionDepth ty <;>
    cases o.allWithin booleanVerdict maxUnionDepth ty <;>
      cases o.allWithin arrayVerdict maxUnionDepth ty <;>
        cases o.allWithin plainObjectVerdict maxUnionDepth ty <;> rfl

/-- A type that the verdict decides is judged by itself, at any depth. -/
theorem allWithin_of_verdict {o : Oracle} {verdict : TypeInfo → Option Bool} {ty : TypeId}
    {answer : Bool} (h : verdict (o.info ty) = some answer) (depth : Nat) :
    o.allWithin verdict depth ty = answer := by
  cases depth with
  | zero => rw [allWithin, h, Option.getD_some]
  | succ depth => rw [allWithin, h]

end Oracle

/-! ## Kinds of contents -/

section Contents

open Oracle

/-- Each of the four verdicts holds of the contents of its kind. -/
theorem verdict_content_iff (content : TypeContent) :
    ∀ test ∈ kindTests, test.2 content.info = some true ↔ content.kind = test.1 := by
  cases content with
  | intrinsic kind => cases kind <;> decide
  | object shape =>
    cases hplain : shape.isPlain <;> rw [ObjectContent.isPlain] at hplain <;>
      simp +decide [kindTests, stringVerdict, booleanVerdict, arrayVerdict, plainObjectVerdict,
        TypeInfo.isUndefined, TypeContent.info, TypeContent.typeFlags, TypeContent.objectFlags,
        TypeContent.kind, ObjectContent.isPlain, hplain]
  | _ =>
    simp +decide [kindTests, stringVerdict, booleanVerdict, arrayVerdict, plainObjectVerdict,
      TypeInfo.isUndefined, TypeContent.info, TypeContent.typeFlags, TypeContent.objectFlags,
      TypeContent.kind]

/-- The four verdicts tell kinds. -/
theorem tells_of_mem_kindTests : ∀ test ∈ kindTests, Tells test.2 test.1 := by
  intro test htest
  have hmembers : ForMembers test.2 := by
    simp only [kindTests, List.mem_cons, List.not_mem_nil, or_false] at htest
    obtain rfl | rfl | rfl | rfl := htest
    · exact forMembers_string
    · exact forMembers_boolean
    · exact forMembers_array
    · exact forMembers_plainObject
  have hmissing : ∀ test ∈ kindTests, test.2 .empty ≠ some true := by decide
  exact ⟨hmembers, fun content => verdict_content_iff content test htest, hmissing test htest⟩

end Contents

/-! ## Kinds of types -/

section Exclusion

variable {t : TypeTable} {v w : TypeInfo → Option Bool} {shape shape' : ValueShape}

theorem info_of_lookup?_eq_none {id : TypeId} (h : t.lookup? id = none) :
    t.oracle.info id = .empty := by
  show ((t.lookup? id).map TypeContent.info).getD .empty = .empty
  rw [h]
  rfl

theorem getD_false_eq_true_iff {answer : Option Bool} :
    answer.getD false = true ↔ answer = some true := by
  cases answer <;> simp

/-- A type is of a kind by its content, or it is a union with defined members, all of them of that
kind one level down. -/
theorem Tells.cases_of_allWithin (h : Tells v shape) {depth : Nat} {id : TypeId}
    (hall : t.oracle.allWithin v depth id = true) :
    (∃ content, t.lookup? id = some content ∧ content.kind = shape) ∨
      ∃ members below, t.lookup? id = some (.union members) ∧ depth = below + 1 ∧
        t.oracle.definedMembers id ≠ [] ∧
        ∀ member ∈ t.oracle.definedMembers id, t.oracle.allWithin v below member = true := by
  cases hlookup : t.lookup? id with
  | none =>
    have hinfo := info_of_lookup?_eq_none hlookup
    have hleaf : (t.oracle.info id).members = none := by
      rw [hinfo]
      rfl
    rw [allWithin_of_members_eq_none v depth hleaf, hinfo, getD_false_eq_true_iff] at hall
    exact absurd hall h.missing
  | some content =>
    have hinfo := TypeTable.info_of_lookup? hlookup
    by_cases hunion : ∃ members, content = .union members
    · obtain ⟨members, rfl⟩ := hunion
      cases depth with
      | zero =>
        rw [Oracle.allWithin, hinfo, h.union] at hall
        exact absurd hall (by simp)
      | succ below =>
        rw [Oracle.allWithin, hinfo, h.union] at hall
        simp only [Bool.and_eq_true, Bool.not_eq_true', List.isEmpty_eq_false_iff,
          List.all_eq_true] at hall
        exact Or.inr ⟨members, below, rfl, rfl, hall⟩
    · have hleaf : (t.oracle.info id).members = none := by
        rw [hinfo]
        refine TypeTable.members_info_eq_none fun members heq => hunion ⟨members, heq⟩
      rw [allWithin_of_members_eq_none v depth hleaf, hinfo, getD_false_eq_true_iff] at hall
      exact Or.inl ⟨content, rfl, (h.content content).mp hall⟩

theorem Tells.kind_union_ne (h : Tells v shape) (members : List TypeId) :
    (TypeContent.union members).kind ≠ shape := by
  rw [Ne, ← h.content, h.union]
  simp

/-- A type that is of two kinds has a member that is, one level down. -/
theorem Tells.exists_member (hv : Tells v shape) (hw : Tells w shape') (hne : shape ≠ shape')
    {depth : Nat} {id : TypeId} (hall : t.oracle.allWithin v depth id = true)
    (hall' : t.oracle.allWithin w depth id = true) :
    ∃ below member, depth = below + 1 ∧ t.oracle.allWithin v below member = true ∧
      t.oracle.allWithin w below member = true := by
  obtain ⟨content, hcontent, hkind⟩ | ⟨members, below, hunion, rfl, hsome, hmembers⟩ :=
    hv.cases_of_allWithin hall
  · obtain ⟨content', hcontent', hkind'⟩ | ⟨members, -, hunion, -⟩ := hw.cases_of_allWithin hall'
    · rw [hcontent, Option.some.injEq] at hcontent'
      subst hcontent'
      exact absurd (hkind.symm.trans hkind') hne
    · rw [hcontent, Option.some.injEq] at hunion
      subst hunion
      exact absurd hkind (hv.kind_union_ne members)
  · obtain ⟨content', hcontent', hkind'⟩ | ⟨-, below', -, hdepth, -, hmembers'⟩ :=
      hw.cases_of_allWithin hall'
    · rw [hunion, Option.some.injEq] at hcontent'
      subst hcontent'
      exact absurd hkind' (hw.kind_union_ne members)
    · obtain rfl : below = below' := by omega
      obtain ⟨member, hmember⟩ := List.exists_mem_of_ne_nil _ hsome
      exact ⟨below, member, rfl, hmembers member hmember, hmembers' member hmember⟩

/-- **Two kinds exclude each other**, at any depth and on any graph of types. -/
theorem Tells.exclusive (hv : Tells v shape) (hw : Tells w shape') (hne : shape ≠ shape')
    (depth : Nat) (id : TypeId) (hall : t.oracle.allWithin v depth id = true) :
    t.oracle.allWithin w depth id = false := by
  rw [← Bool.not_eq_true]
  intro hall'
  induction depth generalizing id with
  | zero =>
    obtain ⟨below, -, hdepth, -⟩ := hv.exists_member hw hne hall hall'
    exact absurd hdepth (by omega)
  | succ depth ih =>
    obtain ⟨below, member, hdepth, hmember, hmember'⟩ := hv.exists_member hw hne hall hall'
    obtain rfl : depth = below := by omega
    exact ih member hmember hmember'

end Exclusion

/-! ## The order of the questions -/

section Order

theorem countP_le_one_of_pairwise {α : Type} {p : α → Bool} {l : List α}
    (h : l.Pairwise fun a b => p a = true → p b = false) : l.countP p ≤ 1 := by
  induction h with
  | nil => exact Nat.zero_le 1
  | @cons a l hhead _ ih =>
    by_cases ha : p a = true
    · have hrest : l.countP p = 0 := by
        rw [List.countP_eq_zero]
        intro b hb
        rw [hhead b hb ha]
        exact Bool.false_ne_true
      have hcons : (a :: l).countP p = l.countP p + 1 := List.countP_cons_of_pos ha
      omega
    · rw [List.countP_cons_of_neg ha]
      exact ih

/-- Where at most one element is looked for, the order does not matter. -/
theorem find?_eq_of_perm {α : Type} {p : α → Bool} {l l' : List α} (h : l.Perm l')
    (hone : l.countP p ≤ 1) : l.find? p = l'.find? p := by
  have hfilter : (l.filter p).Perm (l'.filter p) := h.filter p
  rw [List.countP_eq_length_filter] at hone
  rw [← List.head?_filter, ← List.head?_filter]
  cases hl : l.filter p with
  | nil =>
    rw [hl, List.nil_perm] at hfilter
    rw [hfilter]
  | cons a rest =>
    rw [hl, List.length_cons] at hone
    obtain rfl : rest = [] := List.eq_nil_of_length_eq_zero (by omega)
    rw [hl, List.singleton_perm] at hfilter
    rw [← hfilter]

end Order

namespace TypeTable

variable {t : TypeTable}

/-- Of the four kinds, a type is of at most one. -/
theorem countP_kindTests (t : TypeTable) (id : TypeId) :
    Oracle.kindTests.countP (fun test => t.oracle.allWithin test.2 maxUnionDepth id) ≤ 1 := by
  refine countP_le_one_of_pairwise ?_
  have hshapes : Oracle.kindTests.Pairwise fun first second => first.1 ≠ second.1 := by decide
  refine hshapes.imp_of_mem ?_
  intro first second hfirst hsecond hne
  exact (tells_of_mem_kindTests first hfirst).exclusive (tells_of_mem_kindTests second hsecond) hne
    maxUnionDepth id

/-- A union of nothing but `undefined`, or of nothing at all, is of no kind. -/
theorem Assembled.allWithin_undefined (h : Assembled t) {verdict : TypeInfo → Option Bool}
    (hverdict : ForMembers verdict) (depth : Nat) {id : TypeId}
    (hid : id = .undefined ∨ ∃ members, t.lookup? id = some (.union members) ∧
      ∀ member ∈ members, member = .undefined) :
    t.oracle.allWithin verdict depth id = false := by
  have hinfo : t.oracle.info .undefined = (TypeContent.intrinsic .undefined).info :=
    info_of_lookup? (h.keywords .undefined)
  obtain rfl | ⟨members, hmembers, hundefined⟩ := hid
  · refine Oracle.allWithin_of_verdict ?_ depth
    rw [hinfo, hverdict.undefined]
  · have hnone : t.oracle.definedMembers id = [] := by
      rw [Oracle.definedMembers, info_of_lookup? hmembers]
      refine List.filter_eq_nil_iff.mpr ?_
      intro member hmember
      rw [hundefined member hmember, hinfo]
      decide
    have hverdict' : verdict (t.oracle.info id) = none := by
      rw [info_of_lookup? hmembers, hverdict.union]
    cases depth with
    | zero => rw [Oracle.allWithin, hverdict', Option.getD_none]
    | succ depth =>
      rw [Oracle.allWithin, hverdict', hnone]
      rfl

/-- **At most one of the four kinds.** In every table, however it came about, a type is of at most
one of the kinds string, boolean, array and plain object; neither `undefined` nor a union of nothing
but `undefined` is of any. So the shape of a type is the same for every order in which the four are
asked for. -/
theorem kinds_exclusive (h : Assembled t) :
    (∀ id, [t.oracle.isString id, t.oracle.isBoolean id, t.oracle.isArray id,
      t.oracle.isPlainObject id].count true ≤ 1) ∧
    (∀ id, (id = .undefined ∨ ∃ members, t.lookup? id = some (.union members) ∧
        ∀ member ∈ members, member = .undefined) →
      t.oracle.isString id = false ∧ t.oracle.isBoolean id = false ∧
        t.oracle.isArray id = false ∧ t.oracle.isPlainObject id = false) ∧
    ∀ id tests, tests.Perm Oracle.kindTests → t.oracle.shapeBy tests id = t.oracle.shape id := by
  refine ⟨?_, ?_, ?_⟩
  · intro id
    have hcount : [t.oracle.isString id, t.oracle.isBoolean id, t.oracle.isArray id,
        t.oracle.isPlainObject id].count true =
        Oracle.kindTests.countP fun test => t.oracle.allWithin test.2 maxUnionDepth id := by
      show (Oracle.kindTests.map fun test =>
        t.oracle.allWithin test.2 maxUnionDepth id).count true = _
      rw [List.count, List.countP_map]
      exact List.countP_congr fun test _ => by simp
    rw [hcount]
    exact t.countP_kindTests id
  · intro id hid
    exact ⟨h.allWithin_undefined forMembers_string maxUnionDepth hid,
      h.allWithin_undefined forMembers_boolean maxUnionDepth hid,
      h.allWithin_undefined forMembers_array maxUnionDepth hid,
      h.allWithin_undefined forMembers_plainObject maxUnionDepth hid⟩
  · intro id tests htests
    rw [t.oracle.shape_eq_shapeBy id]
    unfold Oracle.shapeBy
    rw [find?_eq_of_perm htests.symm (t.countP_kindTests id)]

/-! ## A sample -/

/-- A union of itself and `string`, a union of two `undefined`s, an object type with every flag and
the name of a regular expression, and an object type without a name. -/
def tangledTable : TypeTable :=
  [.union [⟨12⟩, .string], .union [.undefined, .undefined],
    .object ⟨[], some regExpName, .all⟩,
    .object ⟨[⟨"name", .string, false⟩], none, .anonymous⟩].foldl
      (fun t content => ((intern content).run t).2) initial

theorem assembled_tangledTable : Assembled tangledTable :=
  .intern _ (.intern _ (.intern _ (.intern _ .initial)))

theorem kinds_exclusive_tangled :
    tangledTable.lookup? ⟨12⟩ = some (.union [⟨12⟩, .string]) ∧
      tangledTable.lookup? ⟨13⟩ = some (.union [.undefined, .undefined]) ∧
      [tangledTable.oracle.isString ⟨12⟩, tangledTable.oracle.isBoolean ⟨12⟩,
        tangledTable.oracle.isArray ⟨12⟩, tangledTable.oracle.isPlainObject ⟨12⟩].count true ≤ 1 ∧
      (tangledTable.oracle.isString ⟨13⟩ = false ∧ tangledTable.oracle.isBoolean ⟨13⟩ = false ∧
        tangledTable.oracle.isArray ⟨13⟩ = false ∧
        tangledTable.oracle.isPlainObject ⟨13⟩ = false) ∧
      tangledTable.oracle.shape ⟨15⟩ = .plainObject ∧
      tangledTable.oracle.shapeBy Oracle.kindTests.reverse ⟨15⟩ =
        tangledTable.oracle.shape ⟨15⟩ := by
  obtain ⟨hone, hnone, horder⟩ := kinds_exclusive assembled_tangledTable
  have hunion : tangledTable.lookup? ⟨13⟩ = some (.union [.undefined, .undefined]) := by
    decide +kernel
  exact ⟨by decide +kernel, hunion, hone ⟨12⟩,
    hnone ⟨13⟩ (Or.inr ⟨[.undefined, .undefined], hunion, by simp⟩), by decide +kernel,
    horder ⟨15⟩ _ (List.reverse_perm _)⟩

end TypeTable

end Assist.Types
