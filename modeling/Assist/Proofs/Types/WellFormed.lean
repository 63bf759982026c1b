import Assist.Proofs.Types.InOrder

/-!
# Object types and their optional properties

The constructors of object types put `undefined` into the types of optional properties, and add the
unions they need for it to the table while they go through the properties. What they return is the
object type with the properties so declared (`declareObject_isObjectOf`). A table is well formed
(`WellFormed`) when it is in order and the types of all optional properties include `undefined`; the
constructors keep it so. Both take the numbers of these unions at their word, so they need a table
that gives every type a number. That the table stays in order does not (`Grown.declareObject`).
-/

namespace Assist.Types

namespace TypeTable

/-- The type `undefined`, or a union with it. -/
def IncludesUndefined (t : TypeTable) (id : TypeId) : Prop :=
  id = .undefined ∨ ∃ members, t.lookup? id = some (.union members) ∧ .undefined ∈ members

/-- The types of optional properties include `undefined`. -/
def OptionalsInclude (t : TypeTable) (properties : List Property) : Prop :=
  ∀ property ∈ properties, property.optional = true → t.IncludesUndefined property.type

/-- A table in order in which the optional properties of every object type include `undefined`. -/
structure WellFormed (t : TypeTable) : Prop extends InOrder t where
  optional : ∀ shape, .object shape ∈ t.contents → t.OptionalsInclude shape.properties

section Including

variable {t t' : TypeTable} {id : TypeId}

theorem KeptBy.includesUndefined (h : t.KeptBy t') (hid : t.IncludesUndefined id) :
    t'.IncludesUndefined id := by
  obtain rfl | ⟨members, hmembers, hmem⟩ := hid
  · exact Or.inl rfl
  · exact Or.inr ⟨members, h.lookup? hmembers, hmem⟩

/-- The union of a type and `undefined` includes `undefined`. -/
theorem IsUnionOf.includesUndefined (h : t.InOrder) {type : TypeId}
    (hunion : t.IsUnionOf [type, .undefined] id) : t.IncludesUndefined id := by
  have hmem : .undefined ∈ t.flatMembers [type, .undefined] := by
    refine mem_flatMembers.mpr ⟨.undefined, by simp, ?_⟩
    rw [TypeId.undefined, h.flatten_intrinsic]
    exact List.mem_singleton_self _
  obtain ⟨hnone, -⟩ | hone | ⟨-, hlookup⟩ := isUnionOf_iff.mp hunion
  · rw [hnone] at hmem
    exact absurd hmem List.not_mem_nil
  · rw [hone, List.mem_singleton] at hmem
    exact Or.inl hmem.symm
  · exact Or.inr ⟨_, hlookup, hmem⟩

end Including

/-! ## Objects -/

section Objects

variable {t t' : TypeTable} {property declared : Property} {properties : List Property}

/-- A property as the table declares it: an optional one has the union of its type and
`undefined`. -/
structure Declares (t : TypeTable) (property declared : Property) : Prop where
  name : declared.name = property.name
  optional : declared.optional = property.optional
  type : if property.optional then t.IsUnionOf [property.type, .undefined] declared.type
    else declared.type = property.type

/-- A type is the object type with the given properties, as the table declares them. -/
def IsObjectOf (t : TypeTable) (shape : ObjectContent) (id : TypeId) : Prop :=
  ∃ declared, List.Forall₂ t.Declares shape.properties declared ∧
    t.lookup? id = some (.object { shape with properties := declared })

theorem InOrder.issued_orUndefined (h : t.InOrder) {type : TypeId} (htype : t.Issued type) :
    ∀ id ∈ [type, TypeId.undefined], t.Issued id := by
  intro id hid
  rw [List.mem_pair] at hid
  obtain rfl | rfl := hid
  · exact htype
  · exact h.issued_intrinsic .undefined

theorem KeptBy.declares (h : t.KeptBy t') (hwf : t.InOrder) (htype : t.Issued property.type)
    (hdeclares : t.Declares property declared) : t'.Declares property declared where
  name := hdeclares.name
  optional := hdeclares.optional
  type := by
    have htype' := hdeclares.type
    by_cases hoptional : property.optional = true
    · rw [if_pos hoptional] at htype' ⊢
      exact h.isUnionOf (hwf.issued_orUndefined htype) htype'
    · rw [if_neg hoptional] at htype' ⊢
      exact htype'

theorem Declares.includesUndefined (h : t.Declares property declared) (hwf : t.InOrder)
    (hoptional : declared.optional = true) : t.IncludesUndefined declared.type := by
  have htype := h.type
  rw [if_pos (h.optional ▸ hoptional)] at htype
  exact htype.includesUndefined hwf

theorem declareProperty_of_optional (h : property.optional = true) :
    (declareProperty property).run t =
      ({ property with type := ((orUndefined property.type).run t).1 },
        ((orUndefined property.type).run t).2) := by
  unfold declareProperty
  rw [if_pos h]
  rfl

theorem declareProperty_of_not_optional (h : ¬property.optional = true) :
    (declareProperty property).run t = (property, t) := by
  unfold declareProperty
  rw [if_neg h]
  rfl

theorem grows_declareProperty :
    Grows declareProperty (fun t property => t.Issued property.type) Property.type where
  given hkept htype := hkept.issued htype
  grown {t property} h htype := by
    by_cases hoptional : property.optional = true
    · rw [declareProperty_of_optional hoptional]
      exact Grown.union h (h.issued_orUndefined htype)
    · rw [declareProperty_of_not_optional hoptional]
      exact Grown.refl h
  issued {t property} h htype := by
    by_cases hoptional : property.optional = true
    · rw [declareProperty_of_optional hoptional]
      exact issued_union h (h.issued_orUndefined htype)
    · rw [declareProperty_of_not_optional hoptional]
      exact htype

/-- Declaring a property. -/
theorem declareProperty_declares (h : t.InOrder) (htype : t.Issued property.type)
    (hnumbered : ((declareProperty property).run t).2.Numbered) :
    ((declareProperty property).run t).2.Declares property
      ((declareProperty property).run t).1 := by
  by_cases hoptional : property.optional = true
  · rw [declareProperty_of_optional hoptional] at hnumbered ⊢
    refine ⟨rfl, rfl, ?_⟩
    rw [if_pos hoptional]
    exact isUnionOf_union h (h.issued_orUndefined htype) hnumbered
  · rw [declareProperty_of_not_optional hoptional]
    refine ⟨rfl, rfl, ?_⟩
    rw [if_neg hoptional]

/-- Declaring the properties one after the other. -/
theorem mapM_declareProperty (h : t.InOrder)
    (htypes : ∀ property ∈ properties, t.Issued property.type)
    (hnumbered : ((properties.mapM declareProperty).run t).2.Numbered) :
    List.Forall₂ ((properties.mapM declareProperty).run t).2.Declares properties
      ((properties.mapM declareProperty).run t).1 :=
  grows_declareProperty.forall₂_mapM declareProperty_declares KeptBy.declares h htypes hnumbered

theorem KeptBy.forall₂_declares (h : t.KeptBy t') (hwf : t.InOrder) {declared : List Property}
    (htypes : ∀ property ∈ properties, t.Issued property.type)
    (hdeclares : List.Forall₂ t.Declares properties declared) :
    List.Forall₂ t'.Declares properties declared := by
  rw [List.forall₂_iff_zip] at hdeclares ⊢
  refine ⟨hdeclares.1, ?_⟩
  intro property later hmem
  exact h.declares hwf (htypes property (List.of_mem_zip hmem).1) (hdeclares.2 hmem)

theorem exists_of_mem_forall₂ {α β : Type} {R : α → β → Prop} {l : List α} {l' : List β}
    (h : List.Forall₂ R l l') {b : β} (hb : b ∈ l') : ∃ a ∈ l, R a b := by
  induction h with
  | nil => exact absurd hb List.not_mem_nil
  | cons hhead _ ih =>
    obtain rfl | htail := List.mem_cons.mp hb
    · exact ⟨_, List.mem_cons_self, hhead⟩
    · obtain ⟨a, ha, hr⟩ := ih htail
      exact ⟨a, List.mem_cons_of_mem _ ha, hr⟩

/-- Properties of types in the table make an object type that fits it. -/
theorem fits_object {declared : List Property}
    (hissued : ∀ property ∈ declared, t.Issued property.type) (symbol : Option String)
    (flags : ObjectFlags) : t.Fits (.object ⟨declared, symbol, flags⟩) where
  issued id hid := by
    obtain ⟨property, hproperty, rfl⟩ := List.mem_map.mp hid
    exact hissued property hproperty
  flat members heq := absurd heq (by simp)

theorem Grown.declareObject (h : t.InOrder)
    (htypes : ∀ property ∈ properties, t.Issued property.type) (symbol : Option String)
    (flags : ObjectFlags) : t.Grown ((declareObject properties symbol flags).run t).2 := by
  obtain ⟨hgrown, hissued⟩ := grows_declareProperty.mapM h htypes
  exact hgrown.trans (Grown.intern hgrown.inOrder (fits_object hissued symbol flags))

/-- The constructors of object types return the object type. -/
theorem declareObject_isObjectOf (h : t.InOrder)
    (htypes : ∀ property ∈ properties, t.Issued property.type) (symbol : Option String)
    (flags : ObjectFlags)
    (hnumbered : ((declareObject properties symbol flags).run t).2.Numbered) :
    ((declareObject properties symbol flags).run t).2.IsObjectOf ⟨properties, symbol, flags⟩
      ((declareObject properties symbol flags).run t).1 := by
  obtain ⟨hgrown, hissued⟩ := grows_declareProperty.mapM h htypes
  have hgrown' := Grown.intern hgrown.inOrder (fits_object hissued symbol flags)
  have hdeclares := mapM_declareProperty h htypes (hgrown'.kept.numbered hnumbered)
  exact ⟨_, hgrown'.kept.forall₂_declares hgrown.inOrder
    (fun property hproperty => hgrown.kept.issued (htypes property hproperty)) hdeclares,
    lookup?_intern hnumbered⟩

end Objects

/-! ## Optional properties -/

section Optionals

variable {t : TypeTable} {properties : List Property}

theorem wellFormed_initial : initial.WellFormed where
  toInOrder := inOrder_initial
  optional shape h := by
    obtain ⟨kind, hkind⟩ := exists_intrinsic_of_initial h
    exact absurd hkind (by simp)

/-- Only an object type that is added can spoil the optional properties. -/
theorem WellFormed.intern (h : t.WellFormed) {content : TypeContent} (hfits : t.Fits content)
    (hoptional : ∀ shape, content = .object shape → t.OptionalsInclude shape.properties) :
    ((intern content).run t).2.WellFormed where
  toInOrder := (Grown.intern h.toInOrder hfits).inOrder
  optional shape hfound := by
    obtain ⟨place, -, hrun⟩ | ⟨-, hrun⟩ := intern_cases t content
    · rw [hrun] at hfound ⊢
      exact h.optional shape hfound
    · rw [hrun] at hfound ⊢
      intro property hproperty hproperty'
      obtain hold | heq := Array.mem_push.mp hfound
      · exact keptBy_added.includesUndefined (h.optional shape hold property hproperty hproperty')
      · have hincluded := hoptional shape heq.symm property hproperty hproperty'
        exact keptBy_added.includesUndefined hincluded

theorem WellFormed.union (h : t.WellFormed) {members : List TypeId}
    (hissued : ∀ id ∈ members, t.Issued id) : ((union members).run t).2.WellFormed := by
  obtain ⟨-, hrun⟩ | ⟨member, -, hrun⟩ | ⟨htwo, hrun⟩ := union_cases t members
  · rw [hrun]
    exact h
  · rw [hrun]
    exact h
  · rw [hrun]
    exact h.intern (h.toInOrder.fits_union hissued htwo) (by simp)

theorem WellFormed.declareProperty (h : t.WellFormed) {property : Property}
    (htype : t.Issued property.type) : ((declareProperty property).run t).2.WellFormed := by
  by_cases hoptional : property.optional = true
  · rw [declareProperty_of_optional hoptional]
    exact h.union (h.toInOrder.issued_orUndefined htype)
  · rw [declareProperty_of_not_optional hoptional]
    exact h

theorem WellFormed.mapM_declareProperty (h : t.WellFormed)
    (htypes : ∀ property ∈ properties, t.Issued property.type) :
    ((properties.mapM TypeTable.declareProperty).run t).2.WellFormed := by
  induction properties generalizing t with
  | nil => exact h
  | cons property properties ih =>
    rw [List.forall_mem_cons] at htypes
    have hkept := (grows_declareProperty.grown h.toInOrder htypes.1).kept
    rw [List.mapM_cons]
    exact ih (h.declareProperty htypes.1) fun other hother =>
      hkept.issued (htypes.2 other hother)

/-- A declared object type has the optional properties that it should have. -/
theorem WellFormed.declareObject (h : t.WellFormed)
    (htypes : ∀ property ∈ properties, t.Issued property.type) (symbol : Option String)
    (flags : ObjectFlags)
    (hnumbered : ((declareObject properties symbol flags).run t).2.Numbered) :
    ((declareObject properties symbol flags).run t).2.WellFormed := by
  obtain ⟨hgrown, hissued⟩ := grows_declareProperty.mapM h.toInOrder htypes
  have hfits := fits_object hissued symbol flags
  have hkept := (Grown.intern hgrown.inOrder hfits).kept
  refine (h.mapM_declareProperty htypes).intern hfits ?_
  intro shape heq later hlater hoptional
  obtain rfl := TypeContent.object.inj heq
  have hdeclares :=
    TypeTable.mapM_declareProperty h.toInOrder htypes (hkept.numbered hnumbered)
  obtain ⟨property, -, hdeclare⟩ := exists_of_mem_forall₂ hdeclares hlater
  exact hdeclare.includesUndefined hgrown.inOrder hoptional

end Optionals

end TypeTable

end Assist.Types
