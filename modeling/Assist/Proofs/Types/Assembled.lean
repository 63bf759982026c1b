import Assist.Proofs.Types.Reachable

/-!
# Tables that are assembled in any way

The constructors of types put tables in order, but a content can also be added as it is: a union of
unions, a union of nothing, a union that is a member of itself, an object type with any flags. Two
things hold of every table that comes about in these ways too, since `intern` alone adds to a table:
no content is in it twice, and the keyword types are at their own numbers (`Assembled.distinct`,
`Assembled.keywords`).
-/

namespace Assist.Types.TypeTable

variable {t t' t'' : TypeTable}

/-! ## What every step keeps -/

/-- `t'` has kept the contents of `t`, and has each content once if `t` has. -/
structure Carried (t t' : TypeTable) : Prop where
  kept : t.KeptBy t'
  distinct : t.contents.toList.Nodup → t'.contents.toList.Nodup

theorem Carried.refl (t : TypeTable) : t.Carried t := ⟨.refl t, id⟩

theorem Carried.trans (h : t.Carried t') (h' : t'.Carried t'') : t.Carried t'' :=
  ⟨h.kept.trans h'.kept, h'.distinct ∘ h.distinct⟩

/-- A computation that carries every table over. -/
def Carries {α : Type} (m : StateM TypeTable α) : Prop :=
  ∀ t : TypeTable, t.Carried (m.run t).2

section Computations

variable {α β : Type}

theorem carries_pure (a : α) : Carries (pure a) := fun t => Carried.refl t

theorem Carries.bind {m : StateM TypeTable α} {f : α → StateM TypeTable β} (hm : Carries m)
    (hf : ∀ a, Carries (f a)) : Carries (m >>= f) := by
  intro t
  exact (hm t).trans (hf (m.run t).1 (m.run t).2)

theorem Carries.mapM {f : α → StateM TypeTable β} (hf : ∀ a, Carries (f a)) (l : List α) :
    Carries (l.mapM f) := by
  induction l with
  | nil => exact carries_pure []
  | cons a l ih =>
    rw [List.mapM_cons]
    exact (hf a).bind fun b => ih.bind fun rest => carries_pure (b :: rest)

end Computations

/-- **One step.** A content is found, or it is new and goes to the end. -/
theorem carries_intern (content : TypeContent) : Carries (intern content) := by
  intro t
  obtain ⟨id, -, hrun⟩ | ⟨hnew, hrun⟩ := intern_cases t content
  · rw [hrun]
    exact Carried.refl t
  · rw [hrun]
    exact ⟨keptBy_added, fun hdistinct => nodup_added hdistinct hnew⟩

theorem carries_union (members : List TypeId) : Carries (union members) := by
  intro t
  obtain ⟨-, hrun⟩ | ⟨member, -, hrun⟩ | ⟨-, hrun⟩ := union_cases t members
  · rw [hrun]
    exact Carried.refl t
  · rw [hrun]
    exact Carried.refl t
  · rw [hrun]
    exact carries_intern _ t

theorem carries_declareProperty (property : Property) : Carries (declareProperty property) := by
  unfold declareProperty
  split
  · exact (carries_union _).bind fun type => carries_pure { property with type }
  · exact carries_pure property

theorem carries_declareObject (properties : List Property) (symbol : Option String)
    (flags : ObjectFlags) : Carries (declareObject properties symbol flags) :=
  (Carries.mapM carries_declareProperty properties).bind fun _ => carries_intern _

theorem carries_constructor (constructor : Constructor) : Carries constructor.run := by
  cases constructor with
  | string value => exact carries_intern _
  | number bits => exact carries_intern _
  | boolean value => exact carries_intern _
  | template parts => exact carries_intern _
  | union members => exact carries_union members
  | orUndefined type => exact carries_union _
  | object properties => exact carries_declareObject properties none .anonymous
  | interface name properties => exact carries_declareObject properties (some name) .interface
  | instanceOf name properties => exact carries_declareObject properties (some name) .ofClass
  | regExp => exact carries_declareObject regExpProperties (some regExpName) .interface
  | array element => exact carries_intern _
  | tuple elements => exact carries_intern _
  | function params returnType => exact carries_intern _

theorem Carried.run (t : TypeTable) (operation : Operation) : t.Carried (operation.run t) := by
  cases operation with
  | make constructor => exact carries_constructor constructor t
  | expect node type => exact ⟨fun _ _ h => h, id⟩

/-! ## Whole runs -/

/-- The tables that are reached from the keyword types by any operations, whatever numbers these
mention, when any content can also be added as it is. -/
inductive Assembled : TypeTable → Prop where
  | initial : Assembled initial
  | step {t : TypeTable} (operation : Operation) : Assembled t → Assembled (operation.run t)
  | intern {t : TypeTable} (content : TypeContent) :
      Assembled t → Assembled ((intern content).run t).2

theorem Assembled.carried (h : Assembled t) : TypeTable.initial.Carried t := by
  induction h with
  | initial => exact Carried.refl TypeTable.initial
  | step operation _ ih => exact ih.trans (Carried.run _ operation)
  | intern content _ ih => exact ih.trans (carries_intern content _)

/-- No content is in the table twice. -/
theorem Assembled.distinct (h : Assembled t) : t.contents.toList.Nodup :=
  h.carried.distinct inOrder_initial.distinct

/-- The keyword types are at their own numbers. -/
theorem Assembled.keywords (h : Assembled t) (kind : Intrinsic) :
    t.lookup? (.ofIntrinsic kind) = some (.intrinsic kind) :=
  h.carried.kept.lookup? (inOrder_initial.keywords kind)

end Assist.Types.TypeTable
