import Assist.Proofs.Types.WellFormed

/-!
# Tables that are built by the constructors

A table is built from the keyword types by a sequence of operations: each makes a type, or records
the type that is expected at a node, and mentions only types that the table has. Whatever the
sequence, the table is in order, and no operation changes the content of a number given out before
it. As long as every type has a number of its own, the types of optional properties include
`undefined`, and every constructor returns the number of the type that it describes
(`wellFormed_and_makes_of_reachable`). A table of more than `2 ^ 32` types gives numbers out again,
and then what a constructor returns may stand for another type.
-/

namespace Assist.Types

open Assist.Syntax

/-- The ways to make a type. -/
inductive Constructor where
  | string (value : String)
  | number (bits : UInt64)
  | boolean (value : Bool)
  | template (parts : List String)
  | union (members : List TypeId)
  | orUndefined (type : TypeId)
  | object (properties : List Property)
  | interface (name : String) (properties : List Property)
  | instanceOf (name : String) (properties : List Property)
  | regExp
  | array (element : TypeId)
  | tuple (elements : List TypeId)
  | function (params : List TypeId) (returnType : TypeId)

/-- The properties of a regular expression. -/
def regExpProperties : List Property :=
  [⟨"source", .string, false⟩, ⟨"flags", .string, false⟩, ⟨"lastIndex", .number, false⟩]

namespace Constructor

/-- The types that a constructor is given. -/
def ids : Constructor → List TypeId
  | .union members => members
  | .orUndefined type => [type]
  | .object properties | .interface _ properties | .instanceOf _ properties =>
    properties.map Property.type
  | .array element => [element]
  | .tuple elements => elements
  | .function params returnType => params ++ [returnType]
  | .string _ | .number _ | .boolean _ | .template _ | .regExp => []

/-- Make the type. -/
def run : Constructor → StateM TypeTable TypeId
  | .string value => TypeTable.intern (.string value)
  | .number bits => TypeTable.intern (.number bits)
  | .boolean value => TypeTable.intern (.boolean value)
  | .template parts => TypeTable.intern (.template parts)
  | .union members => TypeTable.union members
  | .orUndefined type => TypeTable.orUndefined type
  | .object properties => TypeTable.object properties
  | .interface name properties => TypeTable.interface name properties
  | .instanceOf name properties => TypeTable.instanceOf name properties
  | .regExp => TypeTable.regExp
  | .array element => TypeTable.intern (.array element)
  | .tuple elements => TypeTable.intern (.tuple elements)
  | .function params returnType => TypeTable.intern (.function params returnType)

/-- A type of the table is the one that the constructor describes. -/
def Makes (t : TypeTable) (id : TypeId) : Constructor → Prop
  | .string value => t.lookup? id = some (.string value)
  | .number bits => t.lookup? id = some (.number bits)
  | .boolean value => t.lookup? id = some (.boolean value)
  | .template parts => t.lookup? id = some (.template parts)
  | .union members => t.IsUnionOf members id
  | .orUndefined type => t.IsUnionOf [type, .undefined] id
  | .object properties => t.IsObjectOf ⟨properties, none, .anonymous⟩ id
  | .interface name properties => t.IsObjectOf ⟨properties, some name, .interface⟩ id
  | .instanceOf name properties => t.IsObjectOf ⟨properties, some name, .ofClass⟩ id
  | .regExp => t.IsObjectOf ⟨regExpProperties, some regExpName, .interface⟩ id
  | .array element => t.lookup? id = some (.array element)
  | .tuple elements => t.lookup? id = some (.tuple elements)
  | .function params returnType => t.lookup? id = some (.function params returnType)

end Constructor

/-- What can be done with a table. -/
inductive Operation where
  | make (constructor : Constructor)
  | expect (node : NodeId) (type : TypeId)

namespace Operation

/-- The types that an operation is given. -/
def ids : Operation → List TypeId
  | .make constructor => constructor.ids
  | .expect _ type => [type]

/-- The table after an operation. -/
def run (t : TypeTable) : Operation → TypeTable
  | .make constructor => (constructor.run.run t).2
  | .expect node type => t.expect node type

end Operation

namespace TypeTable

/-- Whether a number has been given out is decided by the size of the table. -/
instance (t : TypeTable) (id : TypeId) : Decidable (t.Issued id) :=
  inferInstanceAs (Decidable (id.index.toNat < t.size))

/-- Whether every type has a number of its own is decided by the size of the table. -/
instance (t : TypeTable) : Decidable t.Numbered :=
  inferInstanceAs (Decidable (t.size ≤ UInt32.size))

/-- The tables that are built from the keyword types. -/
inductive Reachable : TypeTable → Prop where
  | initial : Reachable initial
  | step {t : TypeTable} (operation : Operation) :
      Reachable t → (∀ id ∈ operation.ids, t.Issued id) → Reachable (operation.run t)

/-- The tables that are built from the keyword types when contents other than unions can also be
added as they are. -/
inductive Built : TypeTable → Prop where
  | initial : Built initial
  | step {t : TypeTable} (operation : Operation) :
      Built t → (∀ id ∈ operation.ids, t.Issued id) → Built (operation.run t)
  | intern {t : TypeTable} (content : TypeContent) :
      Built t → (∀ id ∈ content.ids, t.Issued id) → (∀ members, content ≠ .union members) →
        Built ((intern content).run t).2

/-! ## One operation -/

variable {t : TypeTable}

/-- A content that is no union fits once its types are in the table. -/
theorem Fits.of_ids {content : TypeContent} (hids : ∀ id ∈ content.ids, t.Issued id)
    (hunion : ∀ members, content ≠ .union members) : t.Fits content where
  issued := hids
  flat members heq := absurd heq (hunion members)

theorem issued_types {properties : List Property}
    (h : ∀ id ∈ properties.map Property.type, t.Issued id) :
    ∀ property ∈ properties, t.Issued property.type := by
  intro property hproperty
  exact h property.type (List.mem_map_of_mem hproperty)

/-- The properties of a regular expression have keyword types. -/
theorem InOrder.issued_regExp (h : t.InOrder) :
    ∀ property ∈ regExpProperties, t.Issued property.type := by
  intro property hproperty
  have hkind : property.type = .ofIntrinsic .string ∨ property.type = .ofIntrinsic .number := by
    revert property
    decide
  obtain hstring | hnumber := hkind
  · rw [hstring]
    exact h.issued_intrinsic .string
  · rw [hnumber]
    exact h.issued_intrinsic .number

/-- A constructor keeps the table in order and what is in it. -/
theorem Grown.constructor (h : t.InOrder) (constructor : Constructor)
    (hids : ∀ id ∈ constructor.ids, t.Issued id) : t.Grown (constructor.run.run t).2 := by
  cases constructor with
  | string value => exact Grown.intern h (.of_ids hids (by simp))
  | number bits => exact Grown.intern h (.of_ids hids (by simp))
  | boolean value => exact Grown.intern h (.of_ids hids (by simp))
  | template parts => exact Grown.intern h (.of_ids hids (by simp))
  | union members => exact Grown.union h hids
  | orUndefined type => exact Grown.union h (h.issued_orUndefined (hids type List.mem_cons_self))
  | object properties => exact Grown.declareObject h (issued_types hids) none .anonymous
  | interface name properties =>
    exact Grown.declareObject h (issued_types hids) (some name) .interface
  | instanceOf name properties =>
    exact Grown.declareObject h (issued_types hids) (some name) .ofClass
  | regExp => exact Grown.declareObject h h.issued_regExp (some regExpName) .interface
  | array element => exact Grown.intern h (.of_ids hids (by simp))
  | tuple elements => exact Grown.intern h (.of_ids hids (by simp))
  | function params returnType => exact Grown.intern h (.of_ids hids (by simp))

/-- A constructor returns the type that it describes. -/
theorem constructor_makes (h : t.InOrder) (constructor : Constructor)
    (hids : ∀ id ∈ constructor.ids, t.Issued id)
    (hnumbered : (constructor.run.run t).2.Numbered) :
    constructor.Makes (constructor.run.run t).2 (constructor.run.run t).1 := by
  cases constructor with
  | string value => exact lookup?_intern hnumbered
  | number bits => exact lookup?_intern hnumbered
  | boolean value => exact lookup?_intern hnumbered
  | template parts => exact lookup?_intern hnumbered
  | union members => exact isUnionOf_union h hids hnumbered
  | orUndefined type =>
    exact isUnionOf_union h (h.issued_orUndefined (hids type List.mem_cons_self)) hnumbered
  | object properties =>
    exact declareObject_isObjectOf h (issued_types hids) none .anonymous hnumbered
  | interface name properties =>
    exact declareObject_isObjectOf h (issued_types hids) (some name) .interface hnumbered
  | instanceOf name properties =>
    exact declareObject_isObjectOf h (issued_types hids) (some name) .ofClass hnumbered
  | regExp =>
    exact declareObject_isObjectOf h h.issued_regExp (some regExpName) .interface hnumbered
  | array element => exact lookup?_intern hnumbered
  | tuple elements => exact lookup?_intern hnumbered
  | function params returnType => exact lookup?_intern hnumbered

/-- An expected type changes no content. -/
theorem Grown.expect (h : t.InOrder) (node : NodeId) (type : TypeId) :
    t.Grown (t.expect node type) := by
  have hkept : t.KeptBy (t.expect node type) := fun _ _ hplace => hplace
  refine ⟨hkept, h.distinct, h.keywords, h.backward, ?_⟩
  intro members hmem
  exact hkept.isFlat (fun _ => h.issued_of_mem hmem) (h.flat members hmem)

/-- **One operation** keeps the table in order and what is in it. -/
theorem Grown.run (h : t.InOrder) (operation : Operation)
    (hids : ∀ id ∈ operation.ids, t.Issued id) : t.Grown (operation.run t) := by
  cases operation with
  | make constructor => exact Grown.constructor h constructor hids
  | expect node type => exact Grown.expect h node type

/-- A constructor leaves optional properties that include `undefined`. -/
theorem WellFormed.make (h : t.WellFormed) (constructor : Constructor)
    (hids : ∀ id ∈ constructor.ids, t.Issued id)
    (hnumbered : (constructor.run.run t).2.Numbered) : (constructor.run.run t).2.WellFormed := by
  cases constructor with
  | string value => exact h.intern (.of_ids hids (by simp)) (by simp)
  | number bits => exact h.intern (.of_ids hids (by simp)) (by simp)
  | boolean value => exact h.intern (.of_ids hids (by simp)) (by simp)
  | template parts => exact h.intern (.of_ids hids (by simp)) (by simp)
  | union members => exact h.union hids
  | orUndefined type =>
    exact h.union (h.toInOrder.issued_orUndefined (hids type List.mem_cons_self))
  | object properties => exact h.declareObject (issued_types hids) none .anonymous hnumbered
  | interface name properties =>
    exact h.declareObject (issued_types hids) (some name) .interface hnumbered
  | instanceOf name properties =>
    exact h.declareObject (issued_types hids) (some name) .ofClass hnumbered
  | regExp => exact h.declareObject h.toInOrder.issued_regExp (some regExpName) .interface hnumbered
  | array element => exact h.intern (.of_ids hids (by simp)) (by simp)
  | tuple elements => exact h.intern (.of_ids hids (by simp)) (by simp)
  | function params returnType => exact h.intern (.of_ids hids (by simp)) (by simp)

theorem WellFormed.run (h : t.WellFormed) (operation : Operation)
    (hids : ∀ id ∈ operation.ids, t.Issued id) (hnumbered : (operation.run t).Numbered) :
    (operation.run t).WellFormed where
  toInOrder := (Grown.run h.toInOrder operation hids).inOrder
  optional := by
    cases operation with
    | make constructor => exact (h.make constructor hids hnumbered).optional
    | expect node type =>
      intro shape hmem property hproperty hoptional
      exact (Grown.expect h.toInOrder node type).kept.includesUndefined
        (h.optional shape hmem property hproperty hoptional)

/-! ## Whole runs -/

theorem Built.inOrder (h : Built t) : t.InOrder := by
  induction h with
  | initial => exact inOrder_initial
  | step operation _ hids ih => exact (Grown.run ih operation hids).inOrder
  | intern content _ hids hunion ih => exact (Grown.intern ih (.of_ids hids hunion)).inOrder

theorem Reachable.built (h : Reachable t) : Built t := by
  induction h with
  | initial => exact .initial
  | step operation _ hids ih => exact .step operation ih hids

theorem Reachable.wellFormed (h : Reachable t) (hnumbered : t.Numbered) : t.WellFormed := by
  induction h with
  | initial => exact wellFormed_initial
  | step operation hreachable hids ih =>
    have hkept := (Grown.run hreachable.built.inOrder operation hids).kept
    exact (ih (hkept.numbered hnumbered)).run operation hids hnumbered

/-- **The table is in order after any run**, and from there every operation keeps the contents that
are in it. If every type has a number of its own, then optional properties include `undefined`, and
every constructor returns the type that it describes. -/
theorem wellFormed_and_makes_of_reachable (h : Reachable t) :
    t.InOrder ∧ (t.Numbered → t.WellFormed) ∧
      (∀ operation : Operation, (∀ id ∈ operation.ids, t.Issued id) →
        t.KeptBy (operation.run t)) ∧
      ∀ constructor : Constructor, (∀ id ∈ constructor.ids, t.Issued id) →
        (constructor.run.run t).2.Numbered →
        constructor.Makes (constructor.run.run t).2 (constructor.run.run t).1 := by
  have hinOrder := h.built.inOrder
  refine ⟨hinOrder, h.wellFormed, ?_, ?_⟩
  · intro operation hids
    exact (Grown.run hinOrder operation hids).kept
  · intro constructor hids hnumbered
    exact constructor_makes hinOrder constructor hids hnumbered

/-! ## A sample -/

/-- Two moods, their union, and options with an optional mood, expected at the first node. -/
def moodTable : TypeTable :=
  [.make (.string "happy"), .make (.string "sad"), .make (.union [⟨12⟩, ⟨13⟩]),
    .make (.object [⟨"mood", ⟨14⟩, true⟩, ⟨"name", .string, false⟩]),
    .expect ⟨0⟩ ⟨16⟩].foldl Operation.run initial

theorem reachable_moodTable : Reachable moodTable := by
  refine .step (.expect ⟨0⟩ ⟨16⟩) (.step (.make (.object _)) (.step (.make (.union _))
    (.step (.make (.string "sad")) (.step (.make (.string "happy")) .initial ?_) ?_) ?_) ?_) ?_
  all_goals decide +kernel

/-- The union of `happy`, `sad`, `undefined` and `string` from the table of moods. -/
theorem wellFormed_and_makes_mood :
    moodTable.lookup? ⟨15⟩ = some (.union [⟨12⟩, ⟨13⟩, .undefined]) ∧
      moodTable.lookup? ⟨16⟩ =
        some (.object ⟨[⟨"mood", ⟨15⟩, true⟩, ⟨"name", .string, false⟩], none, .anonymous⟩) ∧
      moodTable.WellFormed ∧
      moodTable.KeptBy ((Operation.make (.union [⟨15⟩, .string, ⟨12⟩])).run moodTable) ∧
      ((union [⟨15⟩, .string, ⟨12⟩]).run moodTable).2.IsUnionOf [⟨15⟩, .string, ⟨12⟩]
        ((union [⟨15⟩, .string, ⟨12⟩]).run moodTable).1 := by
  obtain ⟨-, hwf, hkept, hmakes⟩ := wellFormed_and_makes_of_reachable reachable_moodTable
  exact ⟨by decide +kernel, by decide +kernel, hwf (by decide +kernel),
    hkept (.make (.union [⟨15⟩, .string, ⟨12⟩])) (by decide +kernel),
    hmakes (.union [⟨15⟩, .string, ⟨12⟩]) (by decide +kernel) (by decide +kernel)⟩

end TypeTable

end Assist.Types
