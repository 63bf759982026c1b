import Assist.Proofs.Types.Contributors
import Assist.Proofs.Types.Exclusive
import Assist.Proofs.Types.UnionLaws

/-!
# The properties of a union

A member contributes to the properties of a union if it is an object type, but no class instance and
no regular expression (`contributes_eq_plain`). So the contributing members of a union are the plain
objects among the parts of its members, each once and in the order in which they come
(`InOrder.completableProperties_union`). Members that bring no plain object change nothing, and
other orders of the members give the same properties in other orders
(`completableProperties_of_union`). To compare two unions, every type of the table needs a number of
its own.
-/

namespace Assist.Types

/-- Whether a content is that of a plain object. -/
def TypeContent.isPlain : TypeContent → Bool
  | .object shape => shape.isPlain
  | _ => false

namespace TypeTable

/-- Whether a type is a plain object. -/
def plain (t : TypeTable) (id : TypeId) : Bool := (t.lookup? id).any TypeContent.isPlain

/-- The plain objects that a type brings into a union: those among its members, or the type itself.
Keyword types, literals, arrays, tuples, functions, class instances and regular expressions bring
none. -/
def brought (t : TypeTable) (id : TypeId) : List TypeId := (t.flatten id).filter t.plain

/-! ## Who contributes -/

section Contributing

variable {t t' : TypeTable} {id : TypeId} {members : List TypeId}

/-- A type that is not a union contributes if it is a plain object. -/
theorem contributes_eq_plain (hleaf : (t.oracle.info id).members = none) :
    t.oracle.contributes id = t.plain id := by
  rw [Oracle.contributes, Oracle.isFunction, Oracle.isPlainObject,
    callableWithin_of_members_eq_none _ hleaf, allWithin_of_members_eq_none _ _ hleaf, plain]
  cases hlookup : t.lookup? id with
  | none =>
    rw [info_of_lookup?_eq_none hlookup]
    decide
  | some content =>
    have hkind := verdict_content_iff content (.plainObject, Oracle.plainObjectVerdict)
      (by simp [Oracle.kindTests])
    rw [info_of_lookup? hlookup, Option.any_some, Bool.eq_iff_iff, Bool.and_eq_true,
      getD_false_eq_true_iff, hkind]
    cases content with
    | intrinsic kind => cases kind <;> decide
    | _ => simp [TypeContent.info, TypeContent.kind, TypeContent.isPlain]

theorem plain_iff : t.plain id = true ↔
    ∃ shape, t.lookup? id = some (.object shape) ∧ shape.isPlain = true := by
  rw [plain, Option.any_eq_true]
  constructor
  · rintro ⟨content, hcontent, hplain⟩
    cases content with
    | object shape => exact ⟨shape, hcontent, hplain⟩
    | _ => exact absurd hplain Bool.false_ne_true
  · rintro ⟨shape, hshape, hplain⟩
    exact ⟨.object shape, hshape, hplain⟩

/-- Of the types that are not unions, only plain objects bring anything. -/
theorem brought_eq_nil {content : TypeContent} (hlookup : t.lookup? id = some content)
    (hunion : ∀ members, content ≠ .union members) (hplain : content.isPlain = false) :
    t.brought id = [] := by
  have hself : t.flatten id = [id] := by
    refine flatten_of_not_union fun members hmembers => hunion members ?_
    rw [hlookup, Option.some.injEq] at hmembers
    exact hmembers
  have hnot : t.plain id = false := by rw [plain, hlookup, Option.any_some, hplain]
  rw [brought, hself, List.filter_cons_of_neg (by simp [hnot]), List.filter_nil]

/-- The members of a type that contribute are the plain objects that it brings into a union. -/
theorem InOrder.contributors_eq (h : t.InOrder) (hid : t.Issued id) :
    t.oracle.contributors id = t.brought id := by
  have hmembers : (t.oracle.info id).members.getD [id] = t.flatten id := by
    obtain ⟨members, hinfo, hflat⟩ | ⟨hleaf, hself⟩ := h.flatten_cases hid
    · rw [hinfo, hflat]
      rfl
    · rw [hleaf, hself, Option.getD_none]
  rw [Oracle.contributors, hmembers, brought]
  refine List.filter_congr fun part hpart => ?_
  exact contributes_eq_plain (h.members_part hid hpart)

/-- A union brings what its members bring, each type once. -/
theorem IsUnionOf.brought_eq (h : t.InOrder) (hissued : ∀ id ∈ members, t.Issued id)
    (hunion : t.IsUnionOf members id) :
    t.brought id = (members.flatMap t.brought).eraseDups := by
  have hparts : (t.flatMembers members).filter t.plain =
      (members.flatMap t.brought).eraseDups := by
    rw [flatMembers, filter_eraseDups, List.filter_flatMap]
    rfl
  rw [← hparts, brought]
  by_cases hsome : members = []
  · -- the union of no types is `never`, which brings nothing
    subst hsome
    obtain rfl : id = .never := hunion
    exact brought_eq_nil (h.keywords .never) (fun _ => by simp) rfl
  · rw [hunion.flatten_eq h hissued hsome]

theorem KeptBy.info_eq (h : t.KeptBy t') (hid : t.Issued id) :
    t'.oracle.info id = t.oracle.info id := by
  obtain ⟨content, hcontent⟩ := issued_iff.mp hid
  rw [info_of_lookup? hcontent, info_of_lookup? (h.lookup? hcontent)]

theorem Grown.brought_eq (h : t.Grown t') (hwf : t.InOrder) (hid : t.Issued id) :
    t'.brought id = t.brought id := by
  rw [brought, brought, h.kept.flatten_eq hid]
  refine List.filter_congr fun part hpart => ?_
  rw [plain, plain, h.kept.lookup?_eq (hwf.of_mem_flatten hid hpart).1]

theorem Grown.flatMap_brought_eq (h : t.Grown t') (hwf : t.InOrder)
    (hissued : ∀ id ∈ members, t.Issued id) :
    members.flatMap t'.brought = members.flatMap t.brought :=
  List.flatMap_congr fun id hid => h.brought_eq hwf (hissued id hid)

theorem KeptBy.offered_eq (h : t.KeptBy t') {contributing : List TypeId}
    (hissued : ∀ id ∈ contributing, t.Issued id) :
    t'.oracle.offered contributing = t.oracle.offered contributing := by
  have hproperties : t'.oracle.propertiesOf contributing = t.oracle.propertiesOf contributing := by
    refine List.flatMap_congr fun id hid => ?_
    rw [h.info_eq (hissued id hid)]
  rw [Oracle.offered, Oracle.offered, hproperties]

theorem InOrder.issued_of_mem_brought (h : t.InOrder) (hid : t.Issued id) {part : TypeId}
    (hpart : part ∈ t.brought id) : t.Issued part :=
  (h.of_mem_flatten hid (List.mem_of_mem_filter hpart)).1

theorem InOrder.all_issued_brought (h : t.InOrder) (hissued : ∀ id ∈ members, t.Issued id) :
    ∀ part ∈ (members.flatMap t.brought).eraseDups, t.Issued part := by
  intro part hpart
  obtain ⟨id, hid, hmem⟩ := List.mem_flatMap.mp (List.mem_eraseDups.mp hpart)
  exact h.issued_of_mem_brought (hissued id hid) hmem

/-- The properties of a type stay when the table grows. -/
theorem Grown.completableProperties_eq (h : t.Grown t') (hwf : t.InOrder) (hid : t.Issued id) :
    t'.oracle.completableProperties id = t.oracle.completableProperties id := by
  rw [Oracle.completableProperties_eq_offered, Oracle.completableProperties_eq_offered,
    h.inOrder.contributors_eq (h.kept.issued hid), hwf.contributors_eq hid, h.brought_eq hwf hid]
  exact h.kept.offered_eq fun part hpart => hwf.issued_of_mem_brought hid hpart

/-- **The properties of a union** are those that the plain objects offer which its members bring. -/
theorem InOrder.completableProperties_union (h : t.InOrder)
    (hissued : ∀ id ∈ members, t.Issued id)
    (hnumbered : ((union members).run t).2.Numbered) :
    ((union members).run t).2.oracle.completableProperties ((union members).run t).1 =
      t.oracle.offered (members.flatMap t.brought).eraseDups := by
  have hgrown := Grown.union h hissued
  have hissued' : ∀ id ∈ members, ((union members).run t).2.Issued id :=
    hgrown.kept.all_issued hissued
  have hunion := isUnionOf_union h hissued hnumbered
  rw [Oracle.completableProperties_eq_offered,
    hgrown.inOrder.contributors_eq (issued_union h hissued),
    hunion.brought_eq hgrown.inOrder hissued', hgrown.flatMap_brought_eq h hissued]
  exact hgrown.kept.offered_eq (h.all_issued_brought hissued)

end Contributing

/-! ## What changes the properties, and what does not -/

section Changes

/-- Elements that stand for nothing can be left out. -/
theorem flatMap_filter_not_isEmpty {α β : Type} (f : α → List β) (l : List α) :
    (l.filter fun a => !(f a).isEmpty).flatMap f = l.flatMap f := by
  induction l with
  | nil => rfl
  | cons a l ih =>
    by_cases ha : f a = []
    · rw [List.filter_cons_of_neg (by simp [ha]), ih, List.flatMap_cons, ha, List.nil_append]
    · rw [List.filter_cons_of_pos (by simp [ha]), List.flatMap_cons, List.flatMap_cons, ih]

theorem eraseDups_perm {α : Type} [BEq α] [LawfulBEq α] {l l' : List α} (h : l.Perm l') :
    l.eraseDups.Perm l'.eraseDups := by
  rw [List.perm_ext_iff_of_nodup (nodup_eraseDups l) (nodup_eraseDups l')]
  intro a
  rw [List.mem_eraseDups, List.mem_eraseDups, h.mem_iff]

variable {t : TypeTable} {a b : List TypeId}

/-- The properties of a union that is made after another one, by the table before both. -/
theorem InOrder.completableProperties_second_union (h : t.InOrder)
    (ha : ∀ id ∈ a, t.Issued id) (hb : ∀ id ∈ b, t.Issued id) :
    let first := (union a).run t
    let second := (union b).run first.2
    second.2.Numbered →
      second.2.oracle.completableProperties second.1 =
          t.oracle.offered (b.flatMap t.brought).eraseDups ∧
        first.2.oracle.completableProperties first.1 =
          t.oracle.offered (a.flatMap t.brought).eraseDups ∧
        second.2.oracle.completableProperties first.1 =
          t.oracle.offered (a.flatMap t.brought).eraseDups := by
  intro first second hnumbered
  have hfirst : t.Grown first.2 := Grown.union h ha
  have hb' : ∀ id ∈ b, first.2.Issued id := hfirst.kept.all_issued hb
  have hsecond : first.2.Grown second.2 := Grown.union hfirst.inOrder hb'
  have hearlier := h.completableProperties_union ha (hsecond.kept.numbered hnumbered)
  refine ⟨?_, hearlier, ?_⟩
  · rw [hfirst.inOrder.completableProperties_union hb' hnumbered, hfirst.flatMap_brought_eq h hb]
    exact hfirst.kept.offered_eq (h.all_issued_brought hb)
  · rw [hsecond.completableProperties_eq hfirst.inOrder (issued_union h ha)]
    exact hearlier

/-- **The properties of a union.** Of one member that is a plain object, or of none, all properties
are offered; of several those whose name occurs once among them. Members that bring no plain object
can be added and taken away, and the same members in another order give the same properties in
another order, if every type has a number of its own. -/
theorem completableProperties_of_union (h : Built t) :
    (∀ members : List TypeId, (∀ id ∈ members, t.Issued id) →
      let made := (union members).run t
      let o := made.2.oracle
      let contributing := (made.2.flatten made.1).filter fun member =>
        o.isPlainObject member && !o.isFunction member
      let properties := contributing.flatMap fun member => (o.info member).properties
      (∀ member ∈ made.2.flatten made.1, member ∈ contributing ↔
        ∃ shape, made.2.lookup? member = some (.object shape) ∧ shape.isPlain = true) ∧
      (contributing.length ≤ 1 → o.completableProperties made.1 = properties) ∧
      (2 ≤ contributing.length →
        o.completableProperties made.1 = (properties.filter fun property =>
          (properties.map Property.name).count property.name = 1) ∧
        ((o.completableProperties made.1).map Property.name).Nodup)) ∧
    (∀ a b : List TypeId, (∀ id ∈ a, t.Issued id) → (∀ id ∈ b, t.Issued id) →
      (a.filter fun id => !(t.brought id).isEmpty) = (b.filter fun id => !(t.brought id).isEmpty) →
      let first := (union a).run t
      let second := (union b).run first.2
      second.2.Numbered →
        second.2.oracle.completableProperties second.1 =
            first.2.oracle.completableProperties first.1 ∧
          second.2.oracle.completableProperties second.1 =
            second.2.oracle.completableProperties first.1) ∧
    ∀ a b : List TypeId, (∀ id ∈ a, t.Issued id) → a.Perm b →
      let first := (union a).run t
      let second := (union b).run first.2
      second.2.Numbered →
        (second.2.oracle.completableProperties second.1).Perm
            (first.2.oracle.completableProperties first.1) ∧
          (second.2.oracle.completableProperties second.1).Perm
            (second.2.oracle.completableProperties first.1) := by
  have hwf := h.inOrder
  refine ⟨?_, ?_, ?_⟩
  · intro members hissued made o contributing properties
    have hgrown : t.Grown made.2 := Grown.union hwf hissued
    have hmade : made.2.Issued made.1 := issued_union hwf hissued
    have hcontributing : contributing = made.2.brought made.1 := by
      refine List.filter_congr fun part hpart => ?_
      rw [← contributes_eq_plain (hgrown.inOrder.members_part hmade hpart), Bool.and_comm]
      rfl
    have hoffered : o.completableProperties made.1 = o.offered contributing := by
      rw [Oracle.completableProperties_eq_offered, hgrown.inOrder.contributors_eq hmade,
        hcontributing]
    refine ⟨?_, ?_, ?_⟩
    · intro member hmember
      rw [hcontributing, brought, List.mem_filter, plain_iff]
      exact and_iff_right hmember
    · intro hone
      rw [hoffered]
      exact Oracle.offered_of_length_le_one hone
    · intro htwo
      rw [hoffered]
      exact ⟨Oracle.offered_of_two_le_length htwo, Oracle.nodup_name_offered htwo⟩
  · intro a b ha hb hsame first second hnumbered
    obtain ⟨hsecond, hfirst, hkept⟩ := hwf.completableProperties_second_union ha hb hnumbered
    have hbrought : a.flatMap t.brought = b.flatMap t.brought := by
      rw [← flatMap_filter_not_isEmpty, hsame, flatMap_filter_not_isEmpty]
    rw [hsecond, hfirst, hkept, hbrought]
    exact ⟨rfl, rfl⟩
  · intro a b ha hperm first second hnumbered
    have hb : ∀ id ∈ b, t.Issued id := fun id hid => ha id (hperm.mem_iff.mpr hid)
    obtain ⟨hsecond, hfirst, hkept⟩ := hwf.completableProperties_second_union ha hb hnumbered
    have hbrought : (b.flatMap t.brought).eraseDups.Perm (a.flatMap t.brought).eraseDups :=
      eraseDups_perm (hperm.symm.flatMap_right _)
    rw [hsecond, hfirst, hkept]
    exact ⟨Oracle.offered_perm hbrought, Oracle.offered_perm hbrought⟩

end Changes

/-! ## A sample -/

/-- Two object types that share a name, an array, a function and a class. -/
def choiceTable : TypeTable :=
  [.make (.object [⟨"a", .string, false⟩]), .make (.array .string),
    .make (.object [⟨"a", ⟨13⟩, false⟩, ⟨"b", .string, false⟩]), .make (.function [] .number),
    .make (.instanceOf "Shape" [⟨"x", .number, false⟩])].foldl Operation.run initial

theorem reachable_choiceTable : Reachable choiceTable := by
  refine .step (.make (.instanceOf _ _)) (.step (.make (.function _ _)) (.step (.make (.object _))
    (.step (.make (.array _)) (.step (.make (.object _)) .initial ?_) ?_) ?_) ?_) ?_
  all_goals decide +kernel

/-- The two object types, with other members among them, and in the other order. -/
theorem completableProperties_of_union_choice :
    let first := (union [⟨12⟩, ⟨14⟩]).run choiceTable
    let second := (union [⟨15⟩, ⟨12⟩, .undefined, ⟨16⟩, ⟨14⟩, ⟨13⟩]).run first.2
    let third := (union [⟨14⟩, ⟨12⟩]).run first.2
    first.2.oracle.completableProperties first.1 = [⟨"b", .string, false⟩] ∧
      ((first.2.oracle.completableProperties first.1).map Property.name).Nodup ∧
      second.2.oracle.completableProperties second.1 =
        first.2.oracle.completableProperties first.1 ∧
      (third.2.oracle.completableProperties third.1).Perm
        (first.2.oracle.completableProperties first.1) := by
  obtain ⟨hproperties, hsame, hperm⟩ := completableProperties_of_union reachable_choiceTable.built
  have hpair : ∀ id ∈ [⟨12⟩, ⟨14⟩], choiceTable.Issued id := by decide +kernel
  refine ⟨by decide +kernel, ?_, ?_, ?_⟩
  · exact ((hproperties [⟨12⟩, ⟨14⟩] hpair).2.2 (by decide +kernel)).2
  · exact (hsame [⟨12⟩, ⟨14⟩] [⟨15⟩, ⟨12⟩, .undefined, ⟨16⟩, ⟨14⟩, ⟨13⟩] hpair
      (by decide +kernel) (by decide +kernel) (by decide +kernel)).1
  · exact (hperm [⟨12⟩, ⟨14⟩] [⟨14⟩, ⟨12⟩] hpair (by decide) (by decide +kernel)).1

end TypeTable

end Assist.Types
