import Assist.Proofs.Types.Reachable

/-!
# Unions of unions

A table opens the unions among the members of a new union and drops repetitions, and the first
occurrences decide the order. Both can be done at once or in turn: the parts of a union of unions
are the parts of the union of all their members, in the same order (`flatMembers_of_unions`). Since
a union that is in the table is found again (`IsUnionOf.run_eq`), the two are one type. By the same
argument it makes no difference to list a member again, nor to add `undefined` a second time
(`union_of_unions`). The unions in between have to be what their numbers say, so every type of the
table needs a number of its own.
-/

namespace Assist.Types

/-! ## First occurrences -/

section FirstOccurrences

variable {α : Type} [BEq α] [LawfulBEq α]

/-- To keep some elements and to drop repetitions can be done in either order. -/
theorem filter_eraseDups (p : α → Bool) :
    ∀ l : List α, l.eraseDups.filter p = (l.filter p).eraseDups
  | [] => rfl
  | a :: l => by
    have ih := filter_eraseDups p (l.filter fun b => !b == a)
    rw [List.eraseDups_cons]
    by_cases ha : p a = true
    · rw [List.filter_cons_of_pos ha, List.filter_cons_of_pos ha, List.eraseDups_cons, ih,
        List.filter_filter, List.filter_filter]
      simp only [Bool.and_comm]
    · -- what is kept is not `a`, so nothing of it is lost with the repetitions of `a`
      have hkept : (l.filter fun b => !b == a).filter p = l.filter p := by
        rw [List.filter_filter]
        refine List.filter_congr fun b _ => ?_
        by_cases hb : b = a
        · subst hb
          rw [Bool.not_eq_true] at ha
          rw [ha, Bool.false_and]
        · simp [hb]
      rw [List.filter_cons_of_neg ha, List.filter_cons_of_neg ha, ih, hkept]
termination_by l => l.length
decreasing_by exact Nat.lt_succ_of_le (List.length_filter_le _ l)

theorem eraseDups_of_nodup {l : List α} (h : l.Nodup) : l.eraseDups = l := by
  induction l with
  | nil => rfl
  | cons a l ih =>
    rw [List.nodup_cons] at h
    have hrest : (l.filter fun b => !b == a) = l := by
      rw [List.filter_eq_self]
      intro b hb
      have hne : b ≠ a := fun heq => h.1 (heq ▸ hb)
      simp [hne]
    rw [List.eraseDups_cons, hrest, ih h.2]

theorem eraseDups_eraseDups (l : List α) : l.eraseDups.eraseDups = l.eraseDups :=
  eraseDups_of_nodup (TypeTable.nodup_eraseDups l)

/-- What has occurred before may as well be left out. -/
theorem eraseDups_append_of_subset {l again rest : List α} (h : again ⊆ l) :
    (l ++ (again ++ rest)).eraseDups = (l ++ rest).eraseDups := by
  have hnone : again.filter (fun a => !l.elem a) = [] := by
    rw [List.filter_eq_nil_iff]
    intro a ha
    simp [h ha]
  rw [List.eraseDups_append, List.eraseDups_append, List.removeAll, List.removeAll,
    List.filter_append, hnone, List.nil_append]

theorem eraseDups_append_eraseDups (l rest : List α) :
    (l ++ rest.eraseDups).eraseDups = (l ++ rest).eraseDups := by
  rw [List.eraseDups_append, List.eraseDups_append, List.removeAll, List.removeAll,
    filter_eraseDups, eraseDups_eraseDups]

theorem eraseDups_eraseDups_append (l rest : List α) :
    (l.eraseDups ++ rest).eraseDups = (l ++ rest).eraseDups := by
  have hrest : rest.removeAll l.eraseDups = rest.removeAll l := by
    refine List.filter_congr fun a _ => ?_
    simp
  rw [List.eraseDups_append, List.eraseDups_append, eraseDups_eraseDups, hrest]

/-- Repetitions can be dropped from every block before the blocks are put together. -/
theorem eraseDups_flatMap_eraseDups {β : Type} (f : β → List α) (l : List β) :
    (l.flatMap fun b => (f b).eraseDups).eraseDups = (l.flatMap f).eraseDups := by
  induction l with
  | nil => rfl
  | cons b l ih =>
    rw [List.flatMap_cons, List.flatMap_cons, eraseDups_eraseDups_append,
      ← eraseDups_append_eraseDups, ih, eraseDups_append_eraseDups]

end FirstOccurrences

namespace TypeTable

/-! ## One type for one list of parts -/

section Parts

variable {t : TypeTable} {a b members : List TypeId} {id : TypeId}

theorem isUnionOf_congr (h : t.flatMembers a = t.flatMembers b) :
    t.IsUnionOf a id ↔ t.IsUnionOf b id := by
  unfold IsUnionOf
  rw [h]

/-- The constructor of unions looks at the parts only. -/
theorem run_union_congr (h : t.flatMembers a = t.flatMembers b) :
    (union a).run t = (union b).run t := by
  unfold flatMembers at h
  unfold union
  rw [StateT.run_bind, StateT.run_bind, StateT.run_get, pure_bind, pure_bind, h]

/-- A union that is in the table is found again. -/
theorem IsUnionOf.run_eq (h : t.InOrder) (hunion : t.IsUnionOf members id) :
    (union members).run t = (id, t) := by
  rw [isUnionOf_iff] at hunion
  obtain ⟨hparts, hrun⟩ | ⟨member, hparts, hrun⟩ | ⟨htwo, hrun⟩ := union_cases t members
  · rw [hparts] at hunion
    obtain ⟨-, rfl⟩ | hone | ⟨htwo, -⟩ := hunion
    · exact hrun
    · exact absurd hone (by simp)
    · exact absurd htwo (by simp)
  · rw [hparts] at hunion
    obtain ⟨hnone, -⟩ | hone | ⟨htwo, -⟩ := hunion
    · exact absurd hnone (by simp)
    · rw [hrun, List.singleton_inj.mp hone]
    · exact absurd htwo (by simp)
  · have hlookup : t.lookup? id = some (.union (t.flatMembers members)) := by
      obtain ⟨hnone, -⟩ | hone | ⟨-, hlookup⟩ := hunion
      · rw [hnone] at htwo
        exact absurd htwo (by simp)
      · rw [hone] at htwo
        exact absurd htwo (by simp)
      · exact hlookup
    rw [hrun]
    obtain ⟨place, hplace, hintern⟩ | ⟨hnew, -⟩ := intern_cases t (.union (t.flatMembers members))
    · rw [hintern, ← place_inj_of_nodup h.distinct hlookup hplace, UInt32.ofNat_toNat]
    · exact absurd (Array.mem_of_getElem? hlookup) hnew

theorem InOrder.flatten_ne_nil (h : t.InOrder) (id : TypeId) : t.flatten id ≠ [] := by
  unfold flatten
  split
  · rename_i inner hinner
    have htwo := (h.flat inner (Array.mem_of_getElem? hinner)).two_le
    rintro rfl
    exact absurd htwo (by simp)
  · exact List.cons_ne_nil id []

/-- The parts of the union of one type or more are those of the members. -/
theorem IsUnionOf.flatten_eq (h : t.InOrder) (hissued : ∀ id ∈ members, t.Issued id)
    (hsome : members ≠ []) (hunion : t.IsUnionOf members id) :
    t.flatten id = t.flatMembers members := by
  obtain ⟨hnone, -⟩ | hone | ⟨-, hlookup⟩ := isUnionOf_iff.mp hunion
  · obtain ⟨first, rest, rfl⟩ := List.exists_cons_of_ne_nil hsome
    obtain ⟨part, hpart⟩ := List.exists_mem_of_ne_nil _ (h.flatten_ne_nil first)
    have hmem : part ∈ t.flatMembers (first :: rest) :=
      mem_flatMembers.mpr ⟨first, List.mem_cons_self, hpart⟩
    rw [hnone] at hmem
    exact absurd hmem List.not_mem_nil
  · have hself : id ∈ t.flatMembers members := by
      rw [hone]
      exact List.mem_singleton_self id
    rw [flatten_of_not_union (h.of_mem_flatMembers hissued hself).2, hone]
  · rw [flatten, hlookup]

end Parts

/-! ## Unions of unions -/

section Nested

variable {t : TypeTable} {parts : List (List TypeId)} {ids : List TypeId}

/-- **Associativity, by parts.** The parts of a union of unions are the parts of the union of all
their members. -/
theorem InOrder.flatMembers_of_unions (h : t.InOrder) (hsome : ∀ members ∈ parts, members ≠ [])
    (hissued : ∀ members ∈ parts, ∀ id ∈ members, t.Issued id)
    (hunions : List.Forall₂ t.IsUnionOf parts ids) :
    t.flatMembers ids = t.flatMembers parts.flatten := by
  have hopened : ids.flatMap t.flatten = parts.flatMap t.flatMembers := by
    induction hunions with
    | nil => rfl
    | @cons members id parts ids hunion _ ih =>
      rw [List.forall_mem_cons] at hsome hissued
      rw [List.flatMap_cons, List.flatMap_cons, hunion.flatten_eq h hissued.1 hsome.1,
        ih hsome.2 hissued.2]
  calc t.flatMembers ids
      = (parts.flatMap t.flatMembers).eraseDups := by rw [flatMembers, hopened]
    _ = (parts.flatMap fun members => members.flatMap t.flatten).eraseDups :=
        eraseDups_flatMap_eraseDups _ _
    _ = t.flatMembers parts.flatten := by
        rw [flatMembers, List.flatten_eq_flatMap, List.flatMap_assoc]
        rfl

theorem grows_union :
    Grows union (fun t members => ∀ id ∈ members, t.Issued id) id where
  given hkept hissued := hkept.all_issued hissued
  grown h hissued := Grown.union h hissued
  issued h hissued := issued_union h hissued

/-- Making unions one after the other. -/
theorem mapM_union (h : t.InOrder) (hissued : ∀ members ∈ parts, ∀ id ∈ members, t.Issued id)
    (hnumbered : ((parts.mapM union).run t).2.Numbered) :
    List.Forall₂ ((parts.mapM union).run t).2.IsUnionOf parts ((parts.mapM union).run t).1 :=
  grows_union.forall₂_mapM isUnionOf_union (fun hkept _ => hkept.isUnionOf) h hissued hnumbered

/-- Some unions that are made one after the other have together the parts of all their members. -/
theorem InOrder.flatMembers_mapM_union (h : t.InOrder) (hsome : ∀ members ∈ parts, members ≠ [])
    (hissued : ∀ members ∈ parts, ∀ id ∈ members, t.Issued id)
    (hnumbered : ((parts.mapM union).run t).2.Numbered) :
    ((parts.mapM union).run t).2.flatMembers ((parts.mapM union).run t).1 =
      ((parts.mapM union).run t).2.flatMembers parts.flatten := by
  have hgrown := (grows_union.mapM h hissued).1
  refine hgrown.inOrder.flatMembers_of_unions hsome ?_ (mapM_union h hissued hnumbered)
  exact fun members hmembers => hgrown.kept.all_issued (hissued members hmembers)

/-- A union of unions. -/
theorem Grown.nested (h : t.InOrder) (hissued : ∀ members ∈ parts, ∀ id ∈ members, t.Issued id) :
    let inner := (parts.mapM TypeTable.union).run t
    let nested := (TypeTable.union inner.1).run inner.2
    t.Grown inner.2 ∧ inner.2.Grown nested.2 := by
  intro inner nested
  obtain ⟨hinner, hids⟩ := grows_union.mapM h hissued
  exact ⟨hinner, Grown.union hinner.inOrder hids⟩

/-- A union of unions is a union of all their members. -/
theorem InOrder.isUnionOf_nested (h : t.InOrder) (hsome : ∀ members ∈ parts, members ≠ [])
    (hissued : ∀ members ∈ parts, ∀ id ∈ members, t.Issued id) :
    let inner := (parts.mapM union).run t
    let nested := (union inner.1).run inner.2
    nested.2.Numbered → nested.2.IsUnionOf parts.flatten nested.1 := by
  intro inner nested hnumbered
  obtain ⟨hinner, hnested⟩ := Grown.nested h hissued
  have hids : ∀ id ∈ inner.1, inner.2.Issued id := (grows_union.mapM h hissued).2
  have hflat : ∀ id ∈ parts.flatten, inner.2.Issued id :=
    hinner.kept.all_issued (List.forall_mem_flatten.mpr hissued)
  have hparts := h.flatMembers_mapM_union hsome hissued (hnested.kept.numbered hnumbered)
  refine (isUnionOf_congr ?_).mp (isUnionOf_union hinner.inOrder hids hnumbered)
  rw [hnested.kept.flatMembers_eq hids, hparts, hnested.kept.flatMembers_eq hflat]

/-- Where the union of all the members is in the table, the union of unions is that one. -/
theorem InOrder.run_nested_eq (h : t.InOrder) (hsome : ∀ members ∈ parts, members ≠ [])
    (hissued : ∀ members ∈ parts, ∀ id ∈ members, t.Issued id) {id : TypeId}
    (hunion : t.IsUnionOf parts.flatten id) :
    let inner := (parts.mapM union).run t
    inner.2.Numbered → (union inner.1).run inner.2 = (id, inner.2) := by
  intro inner hnumbered
  have hinner : t.Grown inner.2 := (grows_union.mapM h hissued).1
  have hparts := h.flatMembers_mapM_union hsome hissued hnumbered
  have hkept : inner.2.IsUnionOf parts.flatten id :=
    hinner.kept.isUnionOf (List.forall_mem_flatten.mpr hissued) hunion
  exact ((isUnionOf_congr hparts).mpr hkept).run_eq hinner.inOrder

end Nested

/-! ## Members that are listed again -/

section Again

variable {t : TypeTable} {members again : List TypeId}

/-- A list with further members, each put behind members that have all its parts. -/
inductive Relists (t : TypeTable) (members : List TypeId) : List TypeId → Prop where
  | refl : Relists t members members
  | again {before after : List TypeId} (id : TypeId) :
      Relists t members (before ++ after) →
      (∀ part ∈ t.flatten id, ∃ other ∈ before, part ∈ t.flatten other) →
      Relists t members (before ++ id :: after)

theorem Relists.flatMembers_eq (h : t.Relists members again) :
    t.flatMembers again = t.flatMembers members := by
  induction h with
  | refl => rfl
  | @again before after id _ hparts ih =>
    have hsubset : t.flatten id ⊆ before.flatMap t.flatten := by
      intro part hpart
      exact List.mem_flatMap.mpr (hparts part hpart)
    rw [← ih, flatMembers, flatMembers, List.flatMap_append, List.flatMap_cons,
      List.flatMap_append, eraseDups_append_of_subset hsubset]

end Again

/-! ## The laws -/

section Laws

variable {t : TypeTable}

/-- The union of a type and `undefined` has the parts of its union with `undefined`. -/
theorem InOrder.flatMembers_orUndefined (h : t.InOrder) {type made : TypeId}
    (htype : t.Issued type) (hmade : t.IsUnionOf [type, .undefined] made) :
    t.flatMembers [made, .undefined] = t.flatMembers [type, .undefined] := by
  have hissued := h.issued_orUndefined htype
  have hundefined : ∀ id ∈ [TypeId.undefined], t.Issued id := by
    intro id hid
    exact hissued id (List.mem_cons_of_mem _ hid)
  have hself : t.IsUnionOf [.undefined] .undefined := by
    refine isUnionOf_iff.mpr (Or.inr (Or.inl ?_))
    rw [flatMembers, List.flatMap_singleton, TypeId.undefined, h.flatten_intrinsic]
    rfl
  have hnested : t.flatMembers [made, .undefined] =
      t.flatMembers [[type, .undefined], [.undefined]].flatten := by
    refine h.flatMembers_of_unions ?_ ?_ (.cons hmade (.cons hself .nil))
    · simp
    · exact List.forall_mem_cons.mpr ⟨hissued, List.forall_mem_singleton.mpr hundefined⟩
  have hagain : t.Relists [type, .undefined] ([type, .undefined] ++ .undefined :: []) := by
    refine .again .undefined .refl ?_
    intro part hpart
    exact ⟨.undefined, by simp, hpart⟩
  exact hnested.trans hagain.flatMembers_eq

/-- **Union is associative, and repetitions do not count.** The union of the unions of some lists
and the union of all their members are one type, whichever of the two is made first and however
much the table grows in between, as long as every type that is made on the way has a number of its
own. Members that are listed again change nothing, and neither does a second union with
`undefined`. -/
theorem union_of_unions (h : Built t) :
    (∀ parts : List (List TypeId), (∀ members ∈ parts, members ≠ []) →
      (∀ members ∈ parts, ∀ id ∈ members, t.Issued id) →
      let inner := (parts.mapM union).run t
      let nested := (union inner.1).run inner.2
      let flat := (union parts.flatten).run t
      (nested.2.Numbered → ∀ later, nested.2.Grown later →
        (union parts.flatten).run later = (nested.1, later)) ∧
      ∀ later, flat.2.Grown later →
        let inner := (parts.mapM union).run later
        inner.2.Numbered → (union inner.1).run inner.2 = (flat.1, inner.2)) ∧
    (∀ members again, t.Relists members again → (union again).run t = (union members).run t) ∧
    ∀ type, t.Issued type →
      let made := (orUndefined type).run t
      made.2.Numbered → (orUndefined made.1).run made.2 = made := by
  have hwf := h.inOrder
  refine ⟨?_, ?_, ?_⟩
  · intro parts hsome hissued inner nested flat
    have hflatten : ∀ id ∈ parts.flatten, t.Issued id := List.forall_mem_flatten.mpr hissued
    refine ⟨?_, ?_⟩
    · intro hnumbered later hlater
      obtain ⟨hinner, hnested⟩ := Grown.nested hwf hissued
      have hunion : nested.2.IsUnionOf parts.flatten nested.1 :=
        hwf.isUnionOf_nested hsome hissued hnumbered
      have hkept : later.IsUnionOf parts.flatten nested.1 :=
        hlater.kept.isUnionOf ((hinner.trans hnested).kept.all_issued hflatten) hunion
      exact hkept.run_eq hlater.inOrder
    · intro later hlater inner hnumbered
      have hgrown : t.Grown later := (Grown.union hwf hflatten).trans hlater
      have hissued' : ∀ members ∈ parts, ∀ id ∈ members, later.Issued id :=
        fun members hmembers => hgrown.kept.all_issued (hissued members hmembers)
      have hinner : later.Grown inner.2 := (grows_union.mapM hlater.inOrder hissued').1
      have hunion : flat.2.IsUnionOf parts.flatten flat.1 :=
        isUnionOf_union hwf hflatten ((hlater.trans hinner).kept.numbered hnumbered)
      have hkept : later.IsUnionOf parts.flatten flat.1 :=
        hlater.kept.isUnionOf ((Grown.union hwf hflatten).kept.all_issued hflatten) hunion
      exact hlater.inOrder.run_nested_eq hsome hissued' hkept hnumbered
  · intro members again hagain
    exact run_union_congr hagain.flatMembers_eq
  · intro type htype made hnumbered
    have hissued := hwf.issued_orUndefined htype
    have hgrown : t.Grown made.2 := Grown.union hwf hissued
    have hmade : made.2.IsUnionOf [type, .undefined] made.1 :=
      isUnionOf_union hwf hissued hnumbered
    have hparts := hgrown.inOrder.flatMembers_orUndefined (hgrown.kept.issued htype) hmade
    exact ((isUnionOf_congr hparts).mpr hmade).run_eq hgrown.inOrder

/-- The optional mood of the table of moods by way of a union of unions, with members again. -/
theorem union_of_unions_mood :
    let inner := ([[⟨14⟩], [⟨13⟩, .string], [.undefined, ⟨12⟩]].mapM union).run moodTable
    let nested := (union inner.1).run inner.2
    let flat := (union [⟨14⟩, ⟨13⟩, .string, .undefined, ⟨12⟩]).run moodTable
    let inner' := ([[⟨14⟩], [⟨13⟩, .string], [.undefined, ⟨12⟩]].mapM union).run flat.2
    let made := (orUndefined ⟨14⟩).run moodTable
    inner.1 = [⟨14⟩, ⟨17⟩, ⟨18⟩] ∧ nested.1 = ⟨19⟩ ∧ flat.1 = ⟨17⟩ ∧
      (union [⟨14⟩, ⟨13⟩, .string, .undefined, ⟨12⟩]).run nested.2 = (nested.1, nested.2) ∧
      (union inner'.1).run inner'.2 = (flat.1, inner'.2) ∧
      (union [⟨15⟩, .string, ⟨12⟩]).run moodTable = (union [⟨15⟩, .string]).run moodTable ∧
      (orUndefined made.1).run made.2 = made := by
  obtain ⟨hunions, hagain, htwice⟩ := union_of_unions reachable_moodTable.built
  have hwf := reachable_moodTable.built.inOrder
  have hissued : ∀ members ∈ [[⟨14⟩], [⟨13⟩, .string], [.undefined, ⟨12⟩]],
      ∀ id ∈ members, moodTable.Issued id := by decide +kernel
  intro inner nested flat inner' made
  obtain ⟨hnested, hflat⟩ :=
    hunions [[⟨14⟩], [⟨13⟩, .string], [.undefined, ⟨12⟩]] (by decide) hissued
  have hgrown : moodTable.Grown nested.2 :=
    (Grown.nested hwf hissued).1.trans (Grown.nested hwf hissued).2
  have hgrown' : moodTable.Grown flat.2 := Grown.union hwf (by decide +kernel)
  have hrelists : moodTable.Relists [⟨15⟩, .string] ([⟨15⟩, .string] ++ ⟨12⟩ :: []) := by
    refine .again ⟨12⟩ .refl ?_
    decide +kernel
  exact ⟨by decide +kernel, by decide +kernel, by decide +kernel,
    hnested (by decide +kernel) nested.2 (Grown.refl hgrown.inOrder),
    hflat flat.2 (Grown.refl hgrown'.inOrder) (by decide +kernel), hagain _ _ hrelists,
    htwice ⟨14⟩ (by decide +kernel) (by decide +kernel)⟩

end Laws

end TypeTable

end Assist.Types
