import Assist.Proofs.Types.Reachable
import Assist.Types.Shape

/-!
# The shape of a union

In a table whose unions all come from the constructor of unions, no union has a union among its
members. So the shape of a type is read off its parts other than `undefined`
(`shape_eq_shapeOfParts`): the members of a union, or the type itself. Only which parts there are
counts for it, and not their order. Two unions with the same parts therefore have the same shape,
and so have a type and its union with `undefined`, as long as the table gives every type a number
(`shape_union_eq_of_parts`).
-/

namespace Assist.Types

/-! ## Shapes by parts -/

/-- Whether there is a part and the verdict holds of every part. -/
def Oracle.everyPart (o : Oracle) (verdict : TypeInfo → Option Bool) (parts : List TypeId) : Bool :=
  !parts.isEmpty && parts.all fun part => (verdict (o.info part)).getD false

/-- The shape of a union of types that are not unions. -/
def Oracle.shapeOfParts (o : Oracle) (parts : List TypeId) : ValueShape :=
  if parts.any fun part => 0 < (o.info part).calls then .function
  else if o.everyPart Oracle.stringVerdict parts then .string
  else if o.everyPart Oracle.booleanVerdict parts then .boolean
  else if o.everyPart Oracle.arrayVerdict parts then .array
  else if o.everyPart Oracle.plainObjectVerdict parts then .plainObject
  else .none

/-- A verdict that leaves unions to their members and does not hold of `undefined`. -/
structure ForMembers (verdict : TypeInfo → Option Bool) : Prop where
  union : ∀ members, verdict (TypeContent.union members).info = none
  undefined : verdict (TypeContent.intrinsic .undefined).info = some false

/-- The flags of a union are no other flags. -/
theorem contains_union_flags :
    TypeFlags.union.contains .undefined = false ∧ TypeFlags.union.contains .any = false ∧
      TypeFlags.union.contains .boolean = false ∧ TypeFlags.union.contains .object = false ∧
      TypeFlags.union.intersects .stringLike = false := by
  decide

theorem forMembers_string : ForMembers Oracle.stringVerdict where
  union members := by
    simp [Oracle.stringVerdict, TypeInfo.isUndefined, TypeContent.info, TypeContent.typeFlags,
      contains_union_flags]
  undefined := rfl

theorem forMembers_boolean : ForMembers Oracle.booleanVerdict where
  union members := by
    simp [Oracle.booleanVerdict, TypeInfo.isUndefined, TypeContent.info, TypeContent.typeFlags,
      contains_union_flags]
  undefined := rfl

theorem forMembers_array : ForMembers Oracle.arrayVerdict where
  union members := by
    simp [Oracle.arrayVerdict, TypeInfo.isUndefined, TypeContent.info, TypeContent.typeFlags,
      contains_union_flags]
  undefined := rfl

theorem forMembers_plainObject : ForMembers Oracle.plainObjectVerdict where
  union members := by
    simp [Oracle.plainObjectVerdict, TypeInfo.isUndefined, TypeContent.info,
      TypeContent.typeFlags, contains_union_flags]
  undefined := rfl

section Parts

theorem all_congr_of_mem_iff {α : Type} {l l' : List α} {p q : α → Bool}
    (hmem : ∀ a, a ∈ l ↔ a ∈ l') (hpq : ∀ a ∈ l, p a = q a) : l.all p = l'.all q := by
  rw [Bool.eq_iff_iff, List.all_eq_true, List.all_eq_true]
  constructor
  · intro h a ha
    rw [← hpq a ((hmem a).mpr ha)]
    exact h a ((hmem a).mpr ha)
  · intro h a ha
    rw [hpq a ha]
    exact h a ((hmem a).mp ha)

theorem any_congr_of_mem_iff {α : Type} {l l' : List α} {p q : α → Bool}
    (hmem : ∀ a, a ∈ l ↔ a ∈ l') (hpq : ∀ a ∈ l, p a = q a) : l.any p = l'.any q := by
  rw [List.any_eq_not_all_not, List.any_eq_not_all_not]
  congr 1
  refine all_congr_of_mem_iff hmem fun a ha => ?_
  rw [hpq a ha]

variable {o o' : Oracle} {parts parts' : List TypeId}

theorem everyPart_congr (verdict : TypeInfo → Option Bool)
    (hparts : ∀ part, part ∈ parts ↔ part ∈ parts')
    (hinfo : ∀ part ∈ parts, o.info part = o'.info part) :
    o.everyPart verdict parts = o'.everyPart verdict parts' := by
  have hempty : parts.isEmpty = parts'.isEmpty := by
    rw [Bool.eq_iff_iff, List.isEmpty_iff, List.isEmpty_iff, List.eq_nil_iff_forall_not_mem,
      List.eq_nil_iff_forall_not_mem]
    exact forall_congr' fun part => not_congr (hparts part)
  have hall : (parts.all fun part => (verdict (o.info part)).getD false) =
      parts'.all fun part => (verdict (o'.info part)).getD false := by
    refine all_congr_of_mem_iff hparts fun part hpart => ?_
    rw [hinfo part hpart]
  unfold Oracle.everyPart
  rw [hempty, hall]

/-- Only which parts there are counts, and what is known of them. -/
theorem shapeOfParts_congr (hparts : ∀ part, part ∈ parts ↔ part ∈ parts')
    (hinfo : ∀ part ∈ parts, o.info part = o'.info part) :
    o.shapeOfParts parts = o'.shapeOfParts parts' := by
  have hany : (parts.any fun part => 0 < (o.info part).calls) =
      parts'.any fun part => 0 < (o'.info part).calls := by
    refine any_congr_of_mem_iff hparts fun part hpart => ?_
    rw [hinfo part hpart]
  unfold Oracle.shapeOfParts
  rw [hany, everyPart_congr _ hparts hinfo, everyPart_congr _ hparts hinfo,
    everyPart_congr _ hparts hinfo, everyPart_congr _ hparts hinfo]

end Parts

/-! ## Types that are not unions -/

section Leaves

variable {o : Oracle} {ty : TypeId}

/-- A type that is not a union is judged by itself, at any depth. -/
theorem allWithin_of_members_eq_none (verdict : TypeInfo → Option Bool) (depth : Nat)
    (h : (o.info ty).members = none) :
    o.allWithin verdict depth ty = (verdict (o.info ty)).getD false := by
  cases depth with
  | zero => rfl
  | succ depth =>
    have hmembers : o.definedMembers ty = [] := by
      rw [Oracle.definedMembers, h]
      rfl
    rw [Oracle.allWithin, hmembers]
    cases verdict (o.info ty) <;> rfl

theorem callableWithin_of_members_eq_none (depth : Nat) (h : (o.info ty).members = none) :
    o.callableWithin depth ty = decide (0 < (o.info ty).calls) := by
  cases depth with
  | zero => rfl
  | succ depth =>
    rw [Oracle.callableWithin, h]
    exact Bool.or_false _

end Leaves

namespace TypeTable

variable {t t' : TypeTable} {id : TypeId}

/-- The parts of a type other than `undefined`: the members of a union, or the type itself. -/
def definedParts (t : TypeTable) (id : TypeId) : List TypeId :=
  (t.flatten id).filter (· ≠ .undefined)

theorem info_of_lookup? {content : TypeContent} (h : t.lookup? id = some content) :
    t.oracle.info id = content.info := by
  show ((t.lookup? id).map TypeContent.info).getD .empty = content.info
  rw [h]
  rfl

theorem isUndefined_info (content : TypeContent) :
    content.info.isUndefined = decide (content = .intrinsic .undefined) := by
  cases content with
  | intrinsic kind => cases kind <;> rfl
  | _ =>
    rw [decide_eq_false (by simp)]
    simp only [TypeInfo.isUndefined, TypeContent.info, TypeContent.typeFlags]
    decide

theorem members_info_eq_none {content : TypeContent} (h : ∀ members, content ≠ .union members) :
    content.info.members = none := by
  cases content with
  | union members => exact absurd rfl (h members)
  | _ => rfl

/-- In a table in order, `undefined` is the only type that is undefined. -/
theorem InOrder.isUndefined_iff (h : t.InOrder) (hid : t.Issued id) :
    (t.oracle.info id).isUndefined = decide (id = .undefined) := by
  obtain ⟨content, hcontent⟩ := issued_iff.mp hid
  rw [info_of_lookup? hcontent, isUndefined_info, decide_eq_decide]
  constructor
  · rintro rfl
    exact h.lookup?_inj hcontent (h.keywords .undefined)
  · rintro rfl
    exact Option.some.inj (hcontent.symm.trans (h.keywords .undefined))

/-- A part of a type is no union. -/
theorem InOrder.members_part (h : t.InOrder) (hid : t.Issued id) {part : TypeId}
    (hpart : part ∈ t.flatten id) : (t.oracle.info part).members = none := by
  obtain ⟨hissued, hunion⟩ := h.of_mem_flatten hid hpart
  obtain ⟨content, hcontent⟩ := issued_iff.mp hissued
  rw [info_of_lookup? hcontent]
  refine members_info_eq_none fun members heq => ?_
  rw [heq] at hcontent
  exact hunion members hcontent

/-- A type in order is a union, whose parts are its members, or its own only part. -/
theorem InOrder.flatten_cases (h : t.InOrder) (hid : t.Issued id) :
    (∃ members, t.oracle.info id = (TypeContent.union members).info ∧ t.flatten id = members) ∨
      ((t.oracle.info id).members = none ∧ t.flatten id = [id]) := by
  obtain ⟨content, hcontent⟩ := issued_iff.mp hid
  by_cases hunion : ∃ members, content = .union members
  · obtain ⟨members, rfl⟩ := hunion
    refine Or.inl ⟨members, info_of_lookup? hcontent, ?_⟩
    rw [flatten, hcontent]
  · have hself : t.flatten id = [id] := by
      refine flatten_of_not_union fun members hmembers => hunion ⟨members, ?_⟩
      exact Option.some.inj (hcontent.symm.trans hmembers)
    refine Or.inr ⟨h.members_part hid ?_, hself⟩
    rw [hself]
    exact List.mem_singleton_self id

theorem InOrder.definedParts_undefined (h : t.InOrder) : t.definedParts .undefined = [] := by
  rw [definedParts, TypeId.undefined, h.flatten_intrinsic]
  rfl

theorem InOrder.definedMembers_eq (h : t.InOrder) (hid : t.Issued id) {members : List TypeId}
    (hinfo : t.oracle.info id = (TypeContent.union members).info) (hflat : t.flatten id = members) :
    t.oracle.definedMembers id = t.definedParts id := by
  have hmembers : (t.oracle.info id).members = some members := by
    rw [hinfo]
    rfl
  rw [Oracle.definedMembers, hmembers, definedParts, hflat, Option.getD_some]
  refine List.filter_congr fun member hmember => ?_
  rw [h.isUndefined_iff (h.of_mem_flatten hid (hflat.symm ▸ hmember)).1, decide_not]

/-- **A kind of type by parts.** A type that the verdict is about is judged by its parts. -/
theorem InOrder.allWithin_eq (h : t.InOrder) {verdict : TypeInfo → Option Bool}
    (hverdict : ForMembers verdict) (hid : t.Issued id) (depth : Nat) :
    t.oracle.allWithin verdict (depth + 1) id = t.oracle.everyPart verdict (t.definedParts id) := by
  obtain ⟨members, hinfo, hflat⟩ | ⟨hleaf, hself⟩ := h.flatten_cases hid
  · rw [Oracle.allWithin, hinfo, hverdict.union, h.definedMembers_eq hid hinfo hflat,
      Oracle.everyPart]
    show (!(t.definedParts id).isEmpty && (t.definedParts id).all _) = _
    congr 1
    refine all_congr_of_mem_iff (fun _ => Iff.rfl) fun part hpart => ?_
    exact allWithin_of_members_eq_none verdict depth
      (h.members_part hid (List.mem_of_mem_filter hpart))
  · rw [allWithin_of_members_eq_none verdict (depth + 1) hleaf]
    by_cases hundefined : id = .undefined
    · have hnone : verdict (t.oracle.info .undefined) = some false := by
        rw [TypeId.undefined, info_of_lookup? (h.keywords .undefined), hverdict.undefined]
      rw [hundefined, h.definedParts_undefined, hnone]
      rfl
    · have hparts : t.definedParts id = [id] := by
        rw [definedParts, hself, List.filter_singleton, decide_eq_true hundefined]
        rfl
      rw [hparts, Oracle.everyPart]
      simp

/-- A type can be called if one of its parts can. -/
theorem InOrder.callableWithin_eq (h : t.InOrder) (hid : t.Issued id) (depth : Nat) :
    t.oracle.callableWithin (depth + 1) id =
      (t.definedParts id).any fun part => 0 < (t.oracle.info part).calls := by
  have hundefined : (t.oracle.info .undefined).calls = 0 := by
    rw [TypeId.undefined, info_of_lookup? (h.keywords .undefined)]
    rfl
  -- `undefined` cannot be called, so it does not matter that it is left out
  have hdefined : ∀ part, decide (0 < (t.oracle.info part).calls) = true → part ≠ .undefined := by
    rintro part hcalls rfl
    rw [hundefined] at hcalls
    exact absurd hcalls (by decide)
  have hparts : ((t.definedParts id).any fun part => 0 < (t.oracle.info part).calls) =
      (t.flatten id).any fun part => 0 < (t.oracle.info part).calls := by
    rw [definedParts, List.any_filter, Bool.eq_iff_iff, List.any_eq_true, List.any_eq_true]
    constructor
    · rintro ⟨part, hpart, hboth⟩
      exact ⟨part, hpart, (Bool.and_eq_true_iff.mp hboth).2⟩
    · rintro ⟨part, hpart, hcalls⟩
      exact ⟨part, hpart, Bool.and_eq_true_iff.mpr
        ⟨decide_eq_true (hdefined part hcalls), hcalls⟩⟩
  rw [hparts]
  obtain ⟨members, hinfo, hflat⟩ | ⟨hleaf, hself⟩ := h.flatten_cases hid
  · rw [Oracle.callableWithin, hinfo, hflat]
    show (false || members.any (t.oracle.callableWithin depth)) = _
    rw [Bool.false_or]
    refine any_congr_of_mem_iff (fun _ => Iff.rfl) fun part hpart => ?_
    exact callableWithin_of_members_eq_none depth (h.members_part hid (hflat.symm ▸ hpart))
  · rw [callableWithin_of_members_eq_none (depth + 1) hleaf, hself]
    simp

/-- **The shape of a type by parts.** -/
theorem InOrder.shape_eq_shapeOfParts (h : t.InOrder) (hid : t.Issued id) :
    t.oracle.shape id = t.oracle.shapeOfParts (t.definedParts id) := by
  have hall : ∀ verdict, ForMembers verdict → t.oracle.allWithin verdict maxUnionDepth id =
      t.oracle.everyPart verdict (t.definedParts id) := fun verdict hverdict =>
    h.allWithin_eq hverdict hid 31
  unfold Oracle.shape Oracle.shapeOfParts Oracle.isFunction Oracle.isString Oracle.isBoolean
    Oracle.isArray Oracle.isPlainObject
  rw [hall _ forMembers_string, hall _ forMembers_boolean, hall _ forMembers_array,
    hall _ forMembers_plainObject, maxUnionDepth, h.callableWithin_eq hid 31,
    h.isUndefined_iff hid]
  by_cases hundefined : id = .undefined
  · -- `undefined` has no parts, and no parts have no shape
    rw [hundefined, h.definedParts_undefined, decide_eq_true rfl]
    rfl
  · rw [decide_eq_false hundefined]
    rfl

/-! ## Unions -/

variable {members : List TypeId}

/-- The shape of a type stays when the table grows. -/
theorem Grown.shape_eq (h : t.Grown t') (hwf : t.InOrder) (hid : t.Issued id) :
    t'.oracle.shape id = t.oracle.shape id := by
  rw [h.inOrder.shape_eq_shapeOfParts (h.kept.issued hid), hwf.shape_eq_shapeOfParts hid,
    definedParts, h.kept.flatten_eq hid, ← definedParts]
  refine shapeOfParts_congr (fun _ => Iff.rfl) fun part hpart => ?_
  have hissued := (hwf.of_mem_flatten hid (List.mem_of_mem_filter hpart)).1
  obtain ⟨content, hcontent⟩ := issued_iff.mp hissued
  rw [info_of_lookup? hcontent, info_of_lookup? (h.kept.lookup? hcontent)]

/-- The shape of a union is that of the opened members other than `undefined`. -/
theorem IsUnionOf.shape_eq (h : t.InOrder) (hissued : ∀ id ∈ members, t.Issued id)
    (hunion : t.IsUnionOf members id) :
    t.oracle.shape id =
      t.oracle.shapeOfParts ((t.flatMembers members).filter (· ≠ .undefined)) := by
  rw [h.shape_eq_shapeOfParts (hunion.issued h hissued), definedParts]
  obtain ⟨hnone, rfl⟩ | hone | ⟨-, hlookup⟩ := isUnionOf_iff.mp hunion
  · -- `never` is a part without a shape, which is as good as none
    have hinfo : t.oracle.info .never = (TypeContent.intrinsic .never).info :=
      info_of_lookup? (h.keywords .never)
    have hshape : t.oracle.shapeOfParts [.never] = .none := by
      simp only [Oracle.shapeOfParts, Oracle.everyPart, List.any_cons, List.any_nil, List.all_cons,
        List.all_nil, hinfo]
      rfl
    rw [hnone, TypeId.never, h.flatten_intrinsic, ← TypeId.never]
    exact hshape
  · have hself : id ∈ t.flatMembers members := by
      rw [hone]
      exact List.mem_singleton_self id
    rw [flatten_of_not_union (h.of_mem_flatMembers hissued hself).2, hone]
  · rw [flatten, hlookup]

theorem IsUnionOf.shape_eq_of_parts (h : t.InOrder) {a b : List TypeId} {first second : TypeId}
    (ha : ∀ id ∈ a, t.Issued id) (hb : ∀ id ∈ b, t.Issued id) (hfirst : t.IsUnionOf a first)
    (hsecond : t.IsUnionOf b second)
    (hparts : ∀ part, part ≠ .undefined → (part ∈ t.flatMembers a ↔ part ∈ t.flatMembers b)) :
    t.oracle.shape first = t.oracle.shape second := by
  rw [hfirst.shape_eq h ha, hsecond.shape_eq h hb]
  refine shapeOfParts_congr (fun part => ?_) fun _ _ => rfl
  simp only [List.mem_filter, decide_eq_true_eq]
  exact and_congr_left fun hdefined => hparts part hdefined

theorem IsUnionOf.shape_eq_of_orUndefined (h : t.InOrder) {type : TypeId}
    (htype : t.Issued type) (hunion : t.IsUnionOf [type, .undefined] id) :
    t.oracle.shape id = t.oracle.shape type := by
  rw [hunion.shape_eq h (h.issued_orUndefined htype), h.shape_eq_shapeOfParts htype]
  refine shapeOfParts_congr (fun part => ?_) fun _ _ => rfl
  have hundefined : t.flatten .undefined = [.undefined] := h.flatten_intrinsic .undefined
  simp only [definedParts, List.mem_filter, decide_eq_true_eq, mem_flatMembers, List.mem_pair]
  refine and_congr_left fun hdefined => ?_
  constructor
  · rintro ⟨other, rfl | rfl, hpart⟩
    · exact hpart
    · rw [hundefined, List.mem_singleton] at hpart
      exact absurd hpart hdefined
  · intro hpart
    exact ⟨type, Or.inl rfl, hpart⟩

/-- **The shape of a union depends only on its parts other than `undefined`.** Two unions with the
same such parts have one shape, in the table after both are made, and a type has the shape of its
union with `undefined`; for that every type needs a number of its own. What is made later does not
change a shape. -/
theorem shape_union_eq_of_parts (h : Built t) :
    (∀ a b : List TypeId, (∀ id ∈ a, t.Issued id) → (∀ id ∈ b, t.Issued id) →
      (∀ part, part ≠ .undefined → (part ∈ a.flatMap t.flatten ↔ part ∈ b.flatMap t.flatten)) →
      let first := (union a).run t
      let second := (union b).run first.2
      (second.2.Numbered → second.2.oracle.shape first.1 = second.2.oracle.shape second.1) ∧
        second.2.oracle.shape first.1 = first.2.oracle.shape first.1) ∧
    ∀ type, t.Issued type →
      let made := (orUndefined type).run t
      (made.2.Numbered → made.2.oracle.shape made.1 = made.2.oracle.shape type) ∧
        made.2.oracle.shape type = t.oracle.shape type := by
  have hwf := h.inOrder
  refine ⟨?_, ?_⟩
  · intro a b ha hb hparts first second
    have hfirst : t.Grown first.2 := Grown.union hwf ha
    have ha' : ∀ id ∈ a, first.2.Issued id := hfirst.kept.all_issued ha
    have hb' : ∀ id ∈ b, first.2.Issued id := hfirst.kept.all_issued hb
    have hsecond : first.2.Grown second.2 := Grown.union hfirst.inOrder hb'
    have hboth : t.KeptBy second.2 := (hfirst.trans hsecond).kept
    refine ⟨fun hnumbered => ?_, hsecond.shape_eq hfirst.inOrder (issued_union hwf ha)⟩
    have hunion : first.2.IsUnionOf a first.1 :=
      isUnionOf_union hwf ha (hsecond.kept.numbered hnumbered)
    refine IsUnionOf.shape_eq_of_parts hsecond.inOrder (hboth.all_issued ha) (hboth.all_issued hb)
      (hsecond.kept.isUnionOf ha' hunion) (isUnionOf_union hfirst.inOrder hb' hnumbered) ?_
    intro part hdefined
    rw [hboth.flatMembers_eq ha, hboth.flatMembers_eq hb, flatMembers, flatMembers,
      List.mem_eraseDups, List.mem_eraseDups]
    exact hparts part hdefined
  · intro type htype made
    have hissued := hwf.issued_orUndefined htype
    have hmade : t.Grown made.2 := Grown.union hwf hissued
    refine ⟨fun hnumbered => ?_, hmade.shape_eq hwf htype⟩
    exact IsUnionOf.shape_eq_of_orUndefined hmade.inOrder (hmade.kept.issued htype)
      (isUnionOf_union hwf hissued hnumbered)

/-- An optional mood and a mood with its members in another order, and a mood and an optional
one. -/
theorem shape_union_eq_of_parts_mood :
    let first := (union [⟨14⟩, .undefined]).run moodTable
    let second := (union [⟨13⟩, ⟨12⟩]).run first.2
    let made := (orUndefined ⟨14⟩).run moodTable
    first.1 ≠ second.1 ∧ second.2.oracle.shape second.1 = .string ∧
      second.2.oracle.shape first.1 = second.2.oracle.shape second.1 ∧
      made.2.oracle.shape made.1 = made.2.oracle.shape ⟨14⟩ := by
  obtain ⟨hunions, hundefined⟩ := shape_union_eq_of_parts reachable_moodTable.built
  have hfirst : [⟨14⟩, .undefined].flatMap moodTable.flatten = [⟨12⟩, ⟨13⟩, .undefined] := by
    decide +kernel
  have hsecond : [⟨13⟩, ⟨12⟩].flatMap moodTable.flatten = [⟨13⟩, ⟨12⟩] := by decide +kernel
  refine ⟨by decide +kernel, by decide +kernel, ?_,
    (hundefined ⟨14⟩ (by decide +kernel)).1 (by decide +kernel)⟩
  refine (hunions [⟨14⟩, .undefined] [⟨13⟩, ⟨12⟩] (by decide +kernel) (by decide +kernel) ?_).1
    (by decide +kernel)
  intro part hpart
  rw [hfirst, hsecond]
  simp only [List.mem_cons, List.not_mem_nil, or_false, hpart]
  exact or_comm

end TypeTable

end Assist.Types
