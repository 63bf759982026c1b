import Assist.Proofs.Types.UnionProperties

/-!
# Unions among the members of a union

A table keeps unions flat, but a union with a union among its members can be added as it is. The
questions about the shape of a type follow such a member, so the shape is that of the flat union
(`NestsUnion.shape_eq`). The properties to complete with do not: they are looked up at the members,
and a union has none of its own, so what the nested union offers comes from the other members alone.
Hence the two offer the same only if the flat union drops all that the members of the inner one
declare and nothing else (`nestedUnion_completes_iff`).
-/

namespace Assist.Types

/-! ## Offers with and without some members -/

namespace Oracle

variable {o : Oracle} {front a b contributing : List TypeId} {property : Property}

theorem offered_eq_filter (o : Oracle) (contributing : List TypeId) :
    o.offered contributing = (o.propertiesOf contributing).filter fun property =>
      decide (contributing.length ≤ 1 ∨
        ((o.propertiesOf contributing).map Property.name).count property.name = 1) := by
  by_cases hone : contributing.length ≤ 1
  · rw [offered_of_length_le_one hone, List.filter_eq_self.mpr]
    intro property _
    exact decide_eq_true (Or.inl hone)
  · rw [offered_of_two_le_length (by omega)]
    refine List.filter_congr fun property _ => ?_
    rw [decide_eq_decide]
    exact (or_iff_right hone).symm

theorem mem_offered_iff : property ∈ o.offered contributing ↔
    property ∈ o.propertiesOf contributing ∧ (contributing.length ≤ 1 ∨
      ((o.propertiesOf contributing).map Property.name).count property.name = 1) := by
  rw [offered_eq_filter, List.mem_filter, decide_eq_true_eq]

theorem offered_sublist (o : Oracle) (contributing : List TypeId) :
    (o.offered contributing).Sublist (o.propertiesOf contributing) := by
  rw [offered_eq_filter]
  exact List.filter_sublist

theorem propertiesOf_append (o : Oracle) (a b : List TypeId) :
    o.propertiesOf (a ++ b) = o.propertiesOf a ++ o.propertiesOf b := List.flatMap_append

theorem length_pos_of_mem_propertiesOf (h : property ∈ o.propertiesOf contributing) :
    0 < contributing.length := by
  obtain ⟨member, hmember, -⟩ := List.mem_flatMap.mp h
  exact List.length_pos_of_mem hmember

theorem count_name_pos (h : property ∈ o.propertiesOf contributing) :
    0 < ((o.propertiesOf contributing).map Property.name).count property.name :=
  List.count_pos_iff.mpr (List.mem_map_of_mem h)

theorem offered_eq_filter_mem (o : Oracle) (contributing : List TypeId) :
    o.offered contributing = (o.propertiesOf contributing).filter fun property =>
      decide (property ∈ o.offered contributing) := by
  conv_lhs => rw [offered_eq_filter]
  refine List.filter_congr fun property hproperty => ?_
  rw [decide_eq_decide, mem_offered_iff]
  exact (and_iff_right hproperty).symm

/-- What is declared on both sides is not offered. -/
theorem not_mem_offered_append (ha : property ∈ o.propertiesOf a)
    (hb : property ∈ o.propertiesOf b) : property ∉ o.offered (a ++ b) := by
  intro hoffered
  obtain ⟨-, hone | honce⟩ := mem_offered_iff.mp hoffered
  · have hposa := length_pos_of_mem_propertiesOf ha
    have hposb := length_pos_of_mem_propertiesOf hb
    rw [List.length_append] at hone
    omega
  · have hposa := count_name_pos ha
    have hposb := count_name_pos hb
    rw [propertiesOf_append, List.map_append, List.count_append] at honce
    omega

/-- A property that is offered among more members is offered among fewer. -/
theorem mem_offered_append_of_mem (hfront : o.propertiesOf front = [])
    (hlength : front.length ≤ a.length) (hb : property ∈ o.propertiesOf b)
    (hoffered : property ∈ o.offered (a ++ b)) : property ∈ o.offered (front ++ b) := by
  rw [mem_offered_iff, propertiesOf_append, hfront, List.nil_append]
  refine ⟨hb, ?_⟩
  obtain ⟨-, hone | honce⟩ := mem_offered_iff.mp hoffered
  · rw [List.length_append] at hone ⊢
    exact Or.inl (by omega)
  · have hpos := count_name_pos hb
    rw [propertiesOf_append, List.map_append, List.count_append] at honce
    exact Or.inr (by omega)

/-- **Members in place of others.** Members without properties offer the same in front of some
members as other members do exactly if these offer none of their properties there and take nothing
away. -/
theorem offered_append_eq_iff (hfront : o.propertiesOf front = [])
    (hlength : front.length ≤ a.length) :
    o.offered (front ++ b) = o.offered (a ++ b) ↔
      (∀ property ∈ o.propertiesOf a, property ∉ o.offered (a ++ b)) ∧
        ∀ property ∈ o.offered (front ++ b), property ∈ o.offered (a ++ b) := by
  have hback : o.propertiesOf (front ++ b) = o.propertiesOf b := by
    rw [propertiesOf_append, hfront, List.nil_append]
  constructor
  · intro heq
    refine ⟨?_, ?_⟩
    · intro property ha hoffered
      have hb : property ∈ o.propertiesOf b := by
        rw [← hback]
        exact (mem_offered_iff.mp (heq ▸ hoffered)).1
      exact not_mem_offered_append ha hb hoffered
    · intro property hproperty
      rw [← heq]
      exact hproperty
  · rintro ⟨hnone, hkept⟩
    have ha : (o.propertiesOf a).filter (fun property =>
        decide (property ∈ o.offered (a ++ b))) = [] := by
      rw [List.filter_eq_nil_iff]
      intro property hproperty hoffered
      exact hnone property hproperty (of_decide_eq_true hoffered)
    rw [offered_eq_filter_mem o (front ++ b), offered_eq_filter_mem o (a ++ b), hback,
      propertiesOf_append, List.filter_append, ha, List.nil_append]
    refine List.filter_congr fun property hb => ?_
    rw [decide_eq_decide]
    exact ⟨hkept property, mem_offered_append_of_mem hfront hlength hb⟩

end Oracle

namespace TypeTable

/-! ## One level of a union -/

section Level

variable {t : TypeTable} {id : TypeId} {members : List TypeId} {v : TypeInfo → Option Bool}

/-- The types of a list that are not `undefined`. -/
def defined (t : TypeTable) (ids : List TypeId) : List TypeId :=
  ids.filter fun id => !(t.oracle.info id).isUndefined

theorem callableWithin_union (h : t.lookup? id = some (.union members)) (depth : Nat) :
    t.oracle.callableWithin (depth + 1) id = members.any (t.oracle.callableWithin depth) := by
  rw [Oracle.callableWithin, info_of_lookup? h]
  exact Bool.false_or _

theorem allWithin_union (hv : ForMembers v) (h : t.lookup? id = some (.union members))
    (depth : Nat) :
    t.oracle.allWithin v (depth + 1) id =
      (!(t.defined members).isEmpty && (t.defined members).all (t.oracle.allWithin v depth)) := by
  have hdefined : t.oracle.definedMembers id = t.defined members := by
    rw [Oracle.definedMembers, info_of_lookup? h]
    rfl
  rw [Oracle.allWithin, info_of_lookup? h, hv.union, hdefined]

/-- A union of types that are not unions is judged by the contents of these. -/
theorem allWithin_union_of_leaves (hv : ForMembers v) (h : t.lookup? id = some (.union members))
    (hleaves : ∀ member ∈ members, (t.oracle.info member).members = none) (depth : Nat) :
    t.oracle.allWithin v (depth + 1) id = t.oracle.everyPart v (t.defined members) := by
  rw [allWithin_union hv h, Oracle.everyPart]
  congr 1
  refine all_congr_of_mem_iff (fun _ => Iff.rfl) fun member hmember => ?_
  exact allWithin_of_members_eq_none v depth (hleaves member (List.mem_of_mem_filter hmember))

end Level

/-! ## A union in a union -/

/-- A union of types that are not unions, a union of it and other such types, and the flat union of
them all. -/
structure NestsUnion (t : TypeTable) (as bs : List TypeId) (inner nested flat : TypeId) : Prop where
  lookup_inner : t.lookup? inner = some (.union as)
  lookup_nested : t.lookup? nested = some (.union (inner :: bs))
  lookup_flat : t.lookup? flat = some (.union (as ++ bs))
  leaves : ∀ id ∈ as ++ bs, (t.oracle.info id).members = none
  defined_ne_nil : t.defined as ≠ []

namespace NestsUnion

variable {t : TypeTable} {as bs : List TypeId} {inner nested flat : TypeId}
  {v : TypeInfo → Option Bool}

theorem leaf_front (h : t.NestsUnion as bs inner nested flat) :
    ∀ id ∈ as, (t.oracle.info id).members = none :=
  fun id hid => h.leaves id (List.mem_append_left _ hid)

theorem leaf_back (h : t.NestsUnion as bs inner nested flat) :
    ∀ id ∈ bs, (t.oracle.info id).members = none :=
  fun id hid => h.leaves id (List.mem_append_right _ hid)

/-- The inner union is no `undefined`. -/
theorem defined_nested (h : t.NestsUnion as bs inner nested flat) :
    t.defined (inner :: bs) = inner :: t.defined bs := by
  refine List.filter_cons_of_pos ?_
  rw [info_of_lookup? h.lookup_inner, isUndefined_info]
  simp

theorem isFunction_eq (h : t.NestsUnion as bs inner nested flat) :
    t.oracle.isFunction nested = t.oracle.isFunction flat := by
  have hleaf : ∀ depth depth', ∀ id ∈ as ++ bs,
      t.oracle.callableWithin depth id = t.oracle.callableWithin depth' id := by
    intro depth depth' id hid
    rw [callableWithin_of_members_eq_none depth (h.leaves id hid),
      callableWithin_of_members_eq_none depth' (h.leaves id hid)]
  show t.oracle.callableWithin (31 + 1) nested = t.oracle.callableWithin (31 + 1) flat
  rw [callableWithin_union h.lookup_nested, callableWithin_union h.lookup_flat, List.any_cons,
    callableWithin_union h.lookup_inner, List.any_append]
  congr 1
  refine any_congr_of_mem_iff (fun _ => Iff.rfl) fun id hid => ?_
  exact hleaf 30 31 id (List.mem_append_left _ hid)

theorem allWithin_eq (h : t.NestsUnion as bs inner nested flat) (hv : ForMembers v) :
    t.oracle.allWithin v maxUnionDepth nested = t.oracle.allWithin v maxUnionDepth flat := by
  show t.oracle.allWithin v (31 + 1) nested = t.oracle.allWithin v (31 + 1) flat
  have hback : (t.defined bs).all (t.oracle.allWithin v 31) =
      (t.defined bs).all fun part => (v (t.oracle.info part)).getD false := by
    refine all_congr_of_mem_iff (fun _ => Iff.rfl) fun id hid => ?_
    exact allWithin_of_members_eq_none v 31 (h.leaf_back id (List.mem_of_mem_filter hid))
  have happend : t.defined (as ++ bs) = t.defined as ++ t.defined bs := List.filter_append ..
  rw [allWithin_union hv h.lookup_nested, h.defined_nested, List.all_cons,
    allWithin_union_of_leaves hv h.lookup_inner h.leaf_front, hback,
    allWithin_union_of_leaves hv h.lookup_flat h.leaves, happend, Oracle.everyPart,
    Oracle.everyPart, List.all_append]
  have hsome : (t.defined as).isEmpty = false := List.isEmpty_eq_false_iff.mpr h.defined_ne_nil
  have hsome' : (t.defined as ++ t.defined bs).isEmpty = false :=
    List.isEmpty_eq_false_iff.mpr (List.append_ne_nil_of_left_ne_nil h.defined_ne_nil _)
  simp only [hsome, hsome', List.isEmpty_cons, Bool.not_false, Bool.true_and]

/-- The shape of the nested union is that of the flat one. -/
theorem shape_eq (h : t.NestsUnion as bs inner nested flat) :
    t.oracle.shape nested = t.oracle.shape flat := by
  unfold Oracle.shape Oracle.isString Oracle.isBoolean Oracle.isArray Oracle.isPlainObject
  rw [h.isFunction_eq, h.allWithin_eq forMembers_string, h.allWithin_eq forMembers_boolean,
    h.allWithin_eq forMembers_array, h.allWithin_eq forMembers_plainObject,
    info_of_lookup? h.lookup_nested, info_of_lookup? h.lookup_flat, isUndefined_info,
    isUndefined_info]
  simp

/-! ## What they offer -/

/-- A type as a list, if it contributes. -/
def front (t : TypeTable) (inner : TypeId) : List TypeId := [inner].filter t.oracle.contributes

theorem contributors_nested (h : t.NestsUnion as bs inner nested flat) :
    t.oracle.contributors nested = front t inner ++ bs.filter t.plain := by
  have hback : bs.filter t.oracle.contributes = bs.filter t.plain :=
    List.filter_congr fun id hid => contributes_eq_plain (h.leaf_back id hid)
  rw [Oracle.contributors, info_of_lookup? h.lookup_nested, ← hback, front, ← List.filter_append]
  rfl

theorem contributors_flat (h : t.NestsUnion as bs inner nested flat) :
    t.oracle.contributors flat = as.filter t.plain ++ bs.filter t.plain := by
  rw [Oracle.contributors, info_of_lookup? h.lookup_flat, ← List.filter_append]
  exact List.filter_congr fun id hid => contributes_eq_plain (h.leaves id hid)

theorem propertiesOf_front (h : t.NestsUnion as bs inner nested flat) :
    t.oracle.propertiesOf (front t inner) = [] := by
  rw [Oracle.propertiesOf, List.flatMap_eq_nil_iff]
  intro id hid
  obtain rfl := List.mem_singleton.mp (List.mem_of_mem_filter hid)
  rw [info_of_lookup? h.lookup_inner]
  rfl

/-- If the inner union contributes, then so does a member of it in the flat union. -/
theorem length_front_le (h : t.NestsUnion as bs inner nested flat) :
    (front t inner).length ≤ (as.filter t.plain).length := by
  by_cases hinner : t.oracle.contributes inner = true
  · rw [Oracle.contributes, Bool.and_eq_true, Bool.not_eq_true'] at hinner
    obtain ⟨hcalls, hobject⟩ := hinner
    obtain ⟨id, hid⟩ := List.exists_mem_of_ne_nil _ h.defined_ne_nil
    have hfront : id ∈ as := List.mem_of_mem_filter hid
    have hobject' : t.oracle.isPlainObject id = true := by
      change t.oracle.allWithin _ (31 + 1) inner = true at hobject
      rw [allWithin_union_of_leaves forMembers_plainObject h.lookup_inner h.leaf_front,
        Oracle.everyPart, Bool.and_eq_true, List.all_eq_true] at hobject
      rw [Oracle.isPlainObject, allWithin_of_members_eq_none _ _ (h.leaf_front id hfront)]
      exact hobject.2 id hid
    have hcalls' : t.oracle.isFunction id = false := by
      change t.oracle.callableWithin (31 + 1) inner = false at hcalls
      rw [callableWithin_union h.lookup_inner, List.any_eq_false] at hcalls
      have hnot := hcalls id hfront
      rw [callableWithin_of_members_eq_none _ (h.leaf_front id hfront), Bool.not_eq_true] at hnot
      rw [Oracle.isFunction, callableWithin_of_members_eq_none _ (h.leaf_front id hfront), hnot]
    have hplain : t.plain id = true := by
      rw [← contributes_eq_plain (h.leaf_front id hfront), Oracle.contributes, hcalls', hobject']
      rfl
    have hpos := List.length_pos_of_mem (List.mem_filter.mpr ⟨hfront, hplain⟩)
    exact Nat.le_trans (List.length_filter_le _ _) hpos
  · rw [front, List.filter_cons_of_neg hinner]
    exact Nat.zero_le _

/-- **What the nested union offers**, against the flat one. -/
theorem completableProperties_eq_iff (h : t.NestsUnion as bs inner nested flat) :
    (t.oracle.completableProperties nested).Sublist (t.oracle.propertiesOf (bs.filter t.plain)) ∧
      (t.oracle.completableProperties nested = t.oracle.completableProperties flat ↔
        (∀ property ∈ t.oracle.propertiesOf (as.filter t.plain),
          property ∉ t.oracle.completableProperties flat) ∧
        ∀ property ∈ t.oracle.completableProperties nested,
          property ∈ t.oracle.completableProperties flat) := by
  rw [Oracle.completableProperties_eq_offered, Oracle.completableProperties_eq_offered,
    h.contributors_nested, h.contributors_flat]
  refine ⟨?_, Oracle.offered_append_eq_iff h.propertiesOf_front h.length_front_le⟩
  have hsublist := t.oracle.offered_sublist (front t inner ++ bs.filter t.plain)
  rw [Oracle.propertiesOf_append, h.propertiesOf_front, List.nil_append] at hsublist
  exact hsublist

end NestsUnion

/-! ## Adding a union of a union -/

section Adding

variable {t : TypeTable} {as bs : List TypeId}

/-- At most one of some different types is `undefined`. -/
theorem Assembled.defined_ne_nil (h : Assembled t) (hissued : ∀ id ∈ as, t.Issued id)
    (hdistinct : as.Nodup) (htwo : 2 ≤ as.length) : t.defined as ≠ [] := by
  intro hnone
  rw [defined, List.filter_eq_nil_iff] at hnone
  have hall : as ⊆ [.undefined] := by
    intro id hid
    obtain ⟨content, hcontent⟩ := issued_iff.mp (hissued id hid)
    have hundefined := hnone id hid
    rw [info_of_lookup? hcontent, isUndefined_info, Bool.not_eq_true', Bool.not_eq_false,
      decide_eq_true_eq] at hundefined
    rw [hundefined] at hcontent
    exact List.mem_singleton.mpr (lookup?_inj_of_nodup h.distinct hcontent (h.keywords .undefined))
  have hlength := (List.subperm_of_subset hdistinct hall).length_le
  rw [List.length_singleton] at hlength
  omega

/-- Adding the three unions one after the other. -/
theorem nestsUnion_of_assembled (h : Assembled t) (hissued : ∀ id ∈ as ++ bs, t.Issued id)
    (hleaves : ∀ id ∈ as ++ bs, (t.oracle.info id).members = none)
    (hdistinct : (as ++ bs).Nodup) (htwo : 2 ≤ as.length) :
    let inner := (intern (.union as)).run t
    let nested := (intern (.union (inner.1 :: bs))).run inner.2
    let flat := (intern (.union (as ++ bs))).run nested.2
    flat.2.Numbered → flat.2.NestsUnion as bs inner.1 nested.1 flat.1 := by
  intro inner nested flat hnumbered
  have hnested : inner.2.KeptBy nested.2 := (carries_intern _ _).kept
  have hflat : nested.2.KeptBy flat.2 := (carries_intern _ _).kept
  have hkept : t.KeptBy flat.2 := ((carries_intern _ t).kept.trans hnested).trans hflat
  have hassembled : Assembled flat.2 := .intern _ (.intern _ (.intern _ h))
  refine ⟨?_, ?_, lookup?_intern hnumbered, ?_, ?_⟩
  · have hinner : inner.2.Numbered := (hnested.trans hflat).numbered hnumbered
    exact (hnested.trans hflat).lookup? (lookup?_intern hinner)
  · exact hflat.lookup? (lookup?_intern (hflat.numbered hnumbered))
  · intro id hid
    rw [hkept.info_eq (hissued id hid)]
    exact hleaves id hid
  · refine hassembled.defined_ne_nil ?_ (List.Nodup.of_append_left hdistinct) htwo
    intro id hid
    exact hkept.issued (hissued id (List.mem_append_left _ hid))

/-- **Unions in unions.** A union with a union among its members has the shape of the flat union. It
offers only properties of its other members, so it offers the same as the flat union exactly if that
one offers no property of a plain object of the inner union, and all that the nested one offers. The
three unions need numbers of their own. -/
theorem nestedUnion_completes_iff (h : Assembled t) (hissued : ∀ id ∈ as ++ bs, t.Issued id)
    (hleaves : ∀ id ∈ as ++ bs, (t.oracle.info id).members = none)
    (hdistinct : (as ++ bs).Nodup) (htwo : 2 ≤ as.length) :
    let inner := (intern (.union as)).run t
    let nested := (intern (.union (inner.1 :: bs))).run inner.2
    let flat := (intern (.union (as ++ bs))).run nested.2
    let o := flat.2.oracle
    flat.2.Numbered →
      o.shape nested.1 = o.shape flat.1 ∧
      (o.completableProperties nested.1).Sublist (o.propertiesOf (bs.filter flat.2.plain)) ∧
      (o.completableProperties nested.1 = o.completableProperties flat.1 ↔
        (∀ property ∈ o.propertiesOf (as.filter flat.2.plain),
          property ∉ o.completableProperties flat.1) ∧
        ∀ property ∈ o.completableProperties nested.1,
          property ∈ o.completableProperties flat.1) := by
  intro inner nested flat o hnumbered
  have hnests := nestsUnion_of_assembled h hissued hleaves hdistinct htwo hnumbered
  exact ⟨hnests.shape_eq, hnests.completableProperties_eq_iff⟩

end Adding

/-! ## Samples -/

/-- Two object types that declare one name with different types, and one with a name of its own. -/
def branchTable : TypeTable :=
  [.object ⟨[⟨"a", .string, false⟩], none, .anonymous⟩,
    .object ⟨[⟨"a", .number, false⟩], none, .anonymous⟩,
    .object ⟨[⟨"b", .string, false⟩], none, .anonymous⟩].foldl
      (fun t content => ((intern content).run t).2) initial

theorem assembled_branchTable : Assembled branchTable :=
  .intern _ (.intern _ (.intern _ .initial))

/-- With both declarations of one name in the inner union, the other name is what is left of the
flat union as well. -/
theorem nestedUnion_completes_iff_shared :
    let inner := (intern (.union [⟨12⟩, ⟨13⟩])).run branchTable
    let nested := (intern (.union [inner.1, ⟨14⟩])).run inner.2
    let flat := (intern (.union [⟨12⟩, ⟨13⟩, ⟨14⟩])).run nested.2
    let o := flat.2.oracle
    o.shape nested.1 = .plainObject ∧ o.shape nested.1 = o.shape flat.1 ∧
      o.completableProperties nested.1 = [⟨"b", .string, false⟩] ∧
      o.completableProperties nested.1 = o.completableProperties flat.1 := by
  obtain ⟨hshape, -, hiff⟩ := @nestedUnion_completes_iff branchTable [⟨12⟩, ⟨13⟩] [⟨14⟩]
    assembled_branchTable (by decide +kernel) (by decide +kernel) (by decide) (by decide)
    (by decide +kernel)
  exact ⟨by decide +kernel, hshape, by decide +kernel, hiff.mpr (by decide +kernel)⟩

/-- With the two declarations of one name apart, the nested union offers one of them, which the flat
union drops, and not the other name, which the flat union offers. -/
theorem nestedUnion_offers_otherwise :
    let inner := (intern (.union [⟨12⟩, ⟨14⟩])).run branchTable
    let nested := (intern (.union [inner.1, ⟨13⟩])).run inner.2
    let flat := (intern (.union [⟨12⟩, ⟨14⟩, ⟨13⟩])).run nested.2
    let o := flat.2.oracle
    Assembled branchTable ∧
      (∀ id ∈ [⟨12⟩, ⟨14⟩, ⟨13⟩],
        branchTable.Issued id ∧ (branchTable.oracle.info id).members = none) ∧
      o.shape nested.1 = o.shape flat.1 ∧
      o.completableProperties nested.1 = [⟨"a", .number, false⟩] ∧
      o.completableProperties flat.1 = [⟨"b", .string, false⟩] ∧
      o.completableProperties nested.1 ≠ o.completableProperties flat.1 := by
  exact ⟨assembled_branchTable, by decide +kernel, by decide +kernel, by decide +kernel,
    by decide +kernel, by decide +kernel⟩

end TypeTable

end Assist.Types
