import Assist.Types.Table
import Mathlib.Data.List.Forall2
import Mathlib.Data.List.Nodup

/-!
# Tables in order

A table of types is in order (`InOrder`) when no content is in it twice, the keyword types are at
their own numbers, contents mention earlier types only and unions are flat. Every table grows by
`intern` alone, so one lemma about it (`Grown.intern`) carries the whole: a content that fits the
table leaves a table in order which has kept all that was there. A constructor then needs to show
only that what it hands to `intern` fits. The constructor of unions does, since the members of the
unions that it opens are no unions themselves (`InOrder.fits_union`).

All this holds of tables of any size. The number that `intern` returns is that of the content as
long as no two types share a number (`Numbered`, `lookup?_intern`), and so the constructor of unions
returns the union (`isUnionOf_union`).
-/

namespace Assist.Types

/-- The types that a content mentions. -/
def TypeContent.ids : TypeContent → List TypeId
  | .union members => members
  | .object shape => shape.properties.map Property.type
  | .array element => [element]
  | .tuple elements => elements
  | .function params returnType => params ++ [returnType]
  | .intrinsic _ | .string _ | .number _ | .boolean _ | .template _ => []

namespace TypeTable

/-! ## Order -/

/-- The table has given out this number. -/
def Issued (t : TypeTable) (id : TypeId) : Prop := id.index.toNat < t.size

/-- Every type of the table has a number of its own: the place of its content. -/
def Numbered (t : TypeTable) : Prop := t.size ≤ UInt32.size

/-- Every content of `t` has the same place in `t'`. -/
def KeptBy (t t' : TypeTable) : Prop :=
  ∀ (place : Nat) (content : TypeContent),
    t.contents[place]? = some content → t'.contents[place]? = some content

/-- Two or more types, all different and none of them a union. -/
structure IsFlat (t : TypeTable) (members : List TypeId) : Prop where
  two_le : 2 ≤ members.length
  nodup : members.Nodup
  no_union : ∀ member ∈ members, ∀ inner, t.lookup? member ≠ some (.union inner)

/-- A table in order. -/
structure InOrder (t : TypeTable) : Prop where
  distinct : t.contents.toList.Nodup
  keywords : ∀ kind, t.lookup? (.ofIntrinsic kind) = some (.intrinsic kind)
  backward : ∀ (place : Nat) (content : TypeContent), t.contents[place]? = some content →
    ∀ other ∈ content.ids, other.index.toNat < place
  flat : ∀ members, .union members ∈ t.contents → t.IsFlat members

/-- A content that can be added to a table in order. -/
structure Fits (t : TypeTable) (content : TypeContent) : Prop where
  issued : ∀ id ∈ content.ids, t.Issued id
  flat : ∀ members, content = .union members → t.IsFlat members

/-- `t'` is in order and has kept the contents of `t`. -/
structure Grown (t t' : TypeTable) : Prop where
  kept : t.KeptBy t'
  inOrder : t'.InOrder

section Keeping

variable {t t' t'' : TypeTable} {id : TypeId}

theorem issued_iff : t.Issued id ↔ ∃ content, t.lookup? id = some content := by
  constructor
  · intro h
    exact ⟨t.contents[id.index.toNat], Array.getElem?_eq_getElem h⟩
  · rintro ⟨content, h⟩
    exact (Array.getElem?_eq_some_iff.mp h).choose

/-- The number of a place is one that the table has given out, also when it starts again. -/
theorem issued_of_place {place : Nat} (h : place < t.size) : t.Issued ⟨UInt32.ofNat place⟩ := by
  refine Nat.lt_of_le_of_lt ?_ h
  rw [UInt32.toNat_ofNat']
  exact Nat.mod_le _ _

/-- The content at a place has that place for its number. -/
theorem Numbered.lookup?_of_place (h : t.Numbered) {place : Nat} {content : TypeContent}
    (hplace : t.contents[place]? = some content) :
    t.lookup? ⟨UInt32.ofNat place⟩ = some content := by
  have hlt : place < t.size := (Array.getElem?_eq_some_iff.mp hplace).choose
  have hnat : (UInt32.ofNat place).toNat = place :=
    UInt32.toNat_ofNat_of_lt (Nat.lt_of_lt_of_le hlt h)
  rw [lookup?, hnat, hplace]

theorem KeptBy.refl (t : TypeTable) : t.KeptBy t := fun _ _ h => h

theorem KeptBy.trans (h : t.KeptBy t') (h' : t'.KeptBy t'') : t.KeptBy t'' := by
  intro place content hplace
  exact h' place content (h place content hplace)

theorem KeptBy.size_le (h : t.KeptBy t') : t.size ≤ t'.size := by
  by_contra hlt
  have hlast : t'.size < t.size := Nat.lt_of_not_le hlt
  have hkept := h t'.size t.contents[t'.size] (Array.getElem?_eq_getElem hlast)
  exact absurd (Array.getElem?_eq_some_iff.mp hkept).choose (Nat.lt_irrefl _)

/-- If a table that has grown gives every type a number, then so did the table before. -/
theorem KeptBy.numbered (h : t.KeptBy t') (h' : t'.Numbered) : t.Numbered :=
  Nat.le_trans h.size_le h'

theorem KeptBy.lookup? (h : t.KeptBy t') {content : TypeContent}
    (hid : t.lookup? id = some content) : t'.lookup? id = some content :=
  h id.index.toNat content hid

theorem KeptBy.lookup?_eq (h : t.KeptBy t') (hid : t.Issued id) :
    t'.lookup? id = t.lookup? id := by
  obtain ⟨content, hcontent⟩ := issued_iff.mp hid
  rw [hcontent, h.lookup? hcontent]

theorem KeptBy.issued (h : t.KeptBy t') (hid : t.Issued id) : t'.Issued id :=
  Nat.lt_of_lt_of_le hid h.size_le

theorem KeptBy.all_issued (h : t.KeptBy t') {ids : List TypeId} (hids : ∀ id ∈ ids, t.Issued id) :
    ∀ id ∈ ids, t'.Issued id := fun id hid => h.issued (hids id hid)

theorem KeptBy.flatten_eq (h : t.KeptBy t') (hid : t.Issued id) :
    t'.flatten id = t.flatten id := by
  unfold flatten
  rw [h.lookup?_eq hid]

theorem KeptBy.isFlat (h : t.KeptBy t') {members : List TypeId}
    (hissued : ∀ member ∈ members, t.Issued member) (hflat : t.IsFlat members) :
    t'.IsFlat members where
  two_le := hflat.two_le
  nodup := hflat.nodup
  no_union member hmember inner := by
    rw [h.lookup?_eq (hissued member hmember)]
    exact hflat.no_union member hmember inner

theorem Grown.refl (h : t.InOrder) : t.Grown t := ⟨.refl t, h⟩

theorem Grown.trans (h : t.Grown t') (h' : t'.Grown t'') : t.Grown t'' :=
  ⟨h.kept.trans h'.kept, h'.inOrder⟩

theorem InOrder.issued_intrinsic (h : t.InOrder) (kind : Intrinsic) :
    t.Issued (.ofIntrinsic kind) :=
  issued_iff.mpr ⟨_, h.keywords kind⟩

/-- The contents that a content mentions are in the table too. -/
theorem InOrder.issued_of_mem_ids (h : t.InOrder) {content : TypeContent}
    (hcontent : t.lookup? id = some content) {other : TypeId} (hother : other ∈ content.ids) :
    t.Issued other := by
  have hid : t.Issued id := issued_iff.mpr ⟨content, hcontent⟩
  exact Nat.lt_trans (h.backward _ content hcontent other hother) hid

theorem InOrder.issued_of_mem (h : t.InOrder) {content : TypeContent} (hmem : content ∈ t.contents)
    {other : TypeId} (hother : other ∈ content.ids) : t.Issued other := by
  obtain ⟨place, hplace⟩ := Array.getElem?_of_mem hmem
  have hlt : place < t.size := (Array.getElem?_eq_some_iff.mp hplace).choose
  exact Nat.lt_trans (h.backward place content hplace other hother) hlt

/-- A content that the table has once has one place. -/
theorem place_inj_of_nodup (h : t.contents.toList.Nodup) {place other : Nat}
    {content : TypeContent} (hplace : t.contents[place]? = some content)
    (hother : t.contents[other]? = some content) : place = other := by
  rw [← Array.getElem?_toList] at hplace hother
  obtain ⟨hlt, -⟩ := List.getElem?_eq_some_iff.mp hplace
  exact (List.getElem?_inj hlt h).mp (hplace.trans hother.symm)

/-- A content that the table has once has one number. -/
theorem lookup?_inj_of_nodup (h : t.contents.toList.Nodup) {other : TypeId}
    {content : TypeContent} (hid : t.lookup? id = some content)
    (hother : t.lookup? other = some content) : id = other :=
  congrArg TypeId.mk (UInt32.toNat_inj.mp (place_inj_of_nodup h hid hother))

theorem InOrder.lookup?_inj (h : t.InOrder) {other : TypeId} {content : TypeContent}
    (hid : t.lookup? id = some content) (hother : t.lookup? other = some content) : id = other :=
  lookup?_inj_of_nodup h.distinct hid hother

end Keeping

/-! ## Adding a content -/

section Adding

variable {t : TypeTable} {content : TypeContent}

/-- The table with one more content. -/
def added (t : TypeTable) (content : TypeContent) : TypeTable :=
  { t with contents := t.contents.push content }

theorem getElem?_added (place : Nat) : (t.added content).contents[place]? =
    if place = t.size then some content else t.contents[place]? :=
  Array.getElem?_push

/-- A content is found in the table, or it gets the next place. -/
theorem intern_cases (t : TypeTable) (content : TypeContent) :
    (∃ place, t.contents[place]? = some content ∧
        (intern content).run t = (⟨UInt32.ofNat place⟩, t)) ∨
      (content ∉ t.contents ∧
        (intern content).run t = (⟨UInt32.ofNat t.size⟩, t.added content)) := by
  cases hindex : t.contents.idxOf? content with
  | none =>
    have hrun : (intern content).run t = (⟨UInt32.ofNat t.size⟩, t.added content) := by
      simp only [intern, StateT.run, hindex, size, added]
    exact Or.inr ⟨Array.idxOf?_eq_none_iff.mp hindex, hrun⟩
  | some place =>
    have hrun : (intern content).run t = (⟨UInt32.ofNat place⟩, t) := by
      simp only [intern, StateT.run, hindex]
    refine Or.inl ⟨place, ?_, hrun⟩
    rw [Array.idxOf?, Option.map_eq_some_iff] at hindex
    obtain ⟨found, hfound, rfl⟩ := hindex
    exact Array.getElem?_eq_some_iff.mpr ⟨found.isLt, (Array.finIdxOf?_eq_some_iff.mp hfound).1⟩

theorem keptBy_added : t.KeptBy (t.added content) := by
  intro place old hold
  have hlt : place < t.size := (Array.getElem?_eq_some_iff.mp hold).choose
  rw [getElem?_added, if_neg (Nat.ne_of_lt hlt), hold]

theorem nodup_added (h : t.contents.toList.Nodup) (hnew : content ∉ t.contents) :
    (t.added content).contents.toList.Nodup := by
  have hpush : (t.added content).contents.toList = t.contents.toList ++ [content] :=
    Array.toList_push
  rw [hpush, List.nodup_append]
  refine ⟨h, List.nodup_singleton content, ?_⟩
  intro old hold last hlast heq
  rw [List.mem_singleton] at hlast
  subst heq hlast
  exact hnew (Array.mem_toList_iff.mp hold)

/-- A new content that fits leaves the table in order. -/
theorem InOrder.added (h : t.InOrder) (hfits : t.Fits content) (hnew : content ∉ t.contents) :
    (t.added content).InOrder where
  distinct := nodup_added h.distinct hnew
  keywords kind := keptBy_added.lookup? (h.keywords kind)
  backward place found hfound other hother := by
    rw [getElem?_added] at hfound
    by_cases hlast : place = t.size
    · rw [if_pos hlast, Option.some.injEq] at hfound
      subst hlast hfound
      exact hfits.issued other hother
    · rw [if_neg hlast] at hfound
      exact h.backward place found hfound other hother
  flat members hmem := by
    obtain hold | rfl := Array.mem_push.mp hmem
    · exact keptBy_added.isFlat (fun _ => h.issued_of_mem hold) (h.flat members hold)
    · exact keptBy_added.isFlat hfits.issued (hfits.flat members rfl)

/-- **One step.** Interning a content that fits keeps the table in order and what is in it. -/
theorem Grown.intern (h : t.InOrder) (hfits : t.Fits content) :
    t.Grown ((intern content).run t).2 := by
  obtain ⟨place, -, hrun⟩ | ⟨hnew, hrun⟩ := intern_cases t content
  · rw [hrun]
    exact Grown.refl h
  · rw [hrun]
    exact ⟨keptBy_added, h.added hfits hnew⟩

/-- The content is at the place that interning returns the number of. -/
theorem exists_place_intern (t : TypeTable) (content : TypeContent) :
    ∃ place, ((intern content).run t).2.contents[place]? = some content ∧
      ((intern content).run t).1 = ⟨UInt32.ofNat place⟩ := by
  obtain ⟨place, hplace, hrun⟩ | ⟨-, hrun⟩ := intern_cases t content
  · rw [hrun]
    exact ⟨place, hplace, rfl⟩
  · rw [hrun]
    exact ⟨t.size, (getElem?_added _).trans (if_pos rfl), rfl⟩

/-- The number that interning returns is that of the content. -/
theorem lookup?_intern (h : ((intern content).run t).2.Numbered) :
    ((intern content).run t).2.lookup? ((intern content).run t).1 = some content := by
  obtain ⟨place, hplace, hid⟩ := exists_place_intern t content
  rw [hid]
  exact h.lookup?_of_place hplace

theorem issued_intern (t : TypeTable) (content : TypeContent) :
    ((intern content).run t).2.Issued ((intern content).run t).1 := by
  obtain ⟨place, hplace, hid⟩ := exists_place_intern t content
  rw [hid]
  exact issued_of_place (Array.getElem?_eq_some_iff.mp hplace).choose

end Adding

theorem exists_intrinsic_of_initial {content : TypeContent} (h : content ∈ initial.contents) :
    ∃ kind, content = .intrinsic kind := by
  have hmem : content ∈ Intrinsic.all.map TypeContent.intrinsic := List.mem_toArray.mp h
  obtain ⟨kind, -, hkind⟩ := List.mem_map.mp hmem
  exact ⟨kind, hkind.symm⟩

/-- The table of the keyword types is in order. -/
theorem inOrder_initial : initial.InOrder where
  distinct := by decide
  keywords kind := by cases kind <;> rfl
  backward place content h other hother := by
    obtain ⟨kind, rfl⟩ := exists_intrinsic_of_initial (Array.mem_of_getElem? h)
    exact absurd hother List.not_mem_nil
  flat members h := by
    obtain ⟨kind, hkind⟩ := exists_intrinsic_of_initial h
    exact absurd hkind (by simp)

/-! ## Unions -/

section Unions

variable {t t' : TypeTable} {members : List TypeId} {id : TypeId}

/-- The members of a union of some types, as the table has them: unions among them opened, each
type once, in the order in which they come. -/
def flatMembers (t : TypeTable) (members : List TypeId) : List TypeId :=
  (members.flatMap t.flatten).eraseDups

/-- A type is the union of some types: `never` for none, the type itself for one, and else the
union content with these members. -/
def IsUnionOf (t : TypeTable) (members : List TypeId) (id : TypeId) : Prop :=
  match t.flatMembers members with
  | [] => id = .never
  | [member] => id = member
  | flat => t.lookup? id = some (.union flat)

theorem mem_flatMembers {member : TypeId} :
    member ∈ t.flatMembers members ↔ ∃ other ∈ members, member ∈ t.flatten other := by
  rw [flatMembers, List.mem_eraseDups, List.mem_flatMap]

theorem nodup_eraseDups {α : Type} [BEq α] [LawfulBEq α] : ∀ l : List α, l.eraseDups.Nodup
  | [] => List.nodup_nil
  | a :: l => by
    rw [List.eraseDups_cons, List.nodup_cons]
    refine ⟨?_, nodup_eraseDups _⟩
    rw [List.mem_eraseDups, List.mem_filter]
    simp
termination_by l => l.length
decreasing_by exact Nat.lt_succ_of_le (List.length_filter_le _ l)

theorem flatten_of_not_union (h : ∀ inner, t.lookup? id ≠ some (.union inner)) :
    t.flatten id = [id] := by
  unfold flatten
  split
  · rename_i inner hinner
    exact absurd hinner (h inner)
  · rfl

/-- What is found by opening a type is in the table and is no union. -/
theorem InOrder.of_mem_flatten (h : t.InOrder) (hid : t.Issued id) {member : TypeId}
    (hmember : member ∈ t.flatten id) :
    t.Issued member ∧ ∀ inner, t.lookup? member ≠ some (.union inner) := by
  unfold flatten at hmember
  split at hmember
  · rename_i inner hinner
    exact ⟨h.issued_of_mem_ids hinner hmember,
      (h.flat inner (Array.mem_of_getElem? hinner)).no_union member hmember⟩
  · rename_i hnot
    rw [List.mem_singleton] at hmember
    subst hmember
    exact ⟨hid, hnot⟩

theorem InOrder.of_mem_flatMembers (h : t.InOrder) (hissued : ∀ id ∈ members, t.Issued id)
    {member : TypeId} (hmember : member ∈ t.flatMembers members) :
    t.Issued member ∧ ∀ inner, t.lookup? member ≠ some (.union inner) := by
  obtain ⟨other, hother, hmem⟩ := mem_flatMembers.mp hmember
  exact h.of_mem_flatten (hissued other hother) hmem

/-- Opened members without repetition make a flat union, so they fit the table. -/
theorem InOrder.fits_union (h : t.InOrder) (hissued : ∀ id ∈ members, t.Issued id)
    (htwo : 2 ≤ (t.flatMembers members).length) : t.Fits (.union (t.flatMembers members)) where
  issued id hid := (h.of_mem_flatMembers hissued hid).1
  flat flat heq := by
    obtain rfl := TypeContent.union.inj heq
    exact ⟨htwo, nodup_eraseDups _, fun member hmember =>
      (h.of_mem_flatMembers hissued hmember).2⟩

/-- The three outcomes of a union. -/
theorem union_cases (t : TypeTable) (members : List TypeId) :
    (t.flatMembers members = [] ∧ (union members).run t = (.never, t)) ∨
      (∃ member, t.flatMembers members = [member] ∧ (union members).run t = (member, t)) ∨
      (2 ≤ (t.flatMembers members).length ∧
        (union members).run t = (intern (.union (t.flatMembers members))).run t) := by
  have hrun : (union members).run t = (match t.flatMembers members with
      | [] => pure .never
      | [member] => pure member
      | flat => intern (.union flat) : StateM TypeTable TypeId).run t := rfl
  rw [hrun]
  cases hflat : t.flatMembers members with
  | nil => exact Or.inl ⟨rfl, rfl⟩
  | cons first rest =>
    cases rest with
    | nil => exact Or.inr (Or.inl ⟨first, rfl, rfl⟩)
    | cons second rest => exact Or.inr (Or.inr ⟨by simp, rfl⟩)

theorem Grown.union (h : t.InOrder) (hissued : ∀ id ∈ members, t.Issued id) :
    t.Grown ((union members).run t).2 := by
  obtain ⟨-, hrun⟩ | ⟨member, -, hrun⟩ | ⟨htwo, hrun⟩ := union_cases t members
  · rw [hrun]
    exact Grown.refl h
  · rw [hrun]
    exact Grown.refl h
  · rw [hrun]
    exact Grown.intern h (h.fits_union hissued htwo)

theorem KeptBy.flatMembers_eq (h : t.KeptBy t') (hissued : ∀ id ∈ members, t.Issued id) :
    t'.flatMembers members = t.flatMembers members := by
  unfold flatMembers
  have hflat : members.flatMap t'.flatten = members.flatMap t.flatten := by
    rw [List.flatMap_congr]
    intro id hid
    exact h.flatten_eq (hissued id hid)
  rw [hflat]

theorem isUnionOf_iff : t.IsUnionOf members id ↔
    (t.flatMembers members = [] ∧ id = .never) ∨ t.flatMembers members = [id] ∨
      (2 ≤ (t.flatMembers members).length ∧
        t.lookup? id = some (.union (t.flatMembers members))) := by
  unfold IsUnionOf
  cases t.flatMembers members with
  | nil => simp
  | cons first rest =>
    cases rest with
    | nil => simp [eq_comm]
    | cons second rest => simp

theorem KeptBy.isUnionOf (h : t.KeptBy t') (hissued : ∀ id ∈ members, t.Issued id)
    (hunion : t.IsUnionOf members id) : t'.IsUnionOf members id := by
  rw [isUnionOf_iff] at hunion ⊢
  rw [h.flatMembers_eq hissued]
  obtain hnone | hone | ⟨htwo, hlookup⟩ := hunion
  · exact Or.inl hnone
  · exact Or.inr (Or.inl hone)
  · exact Or.inr (Or.inr ⟨htwo, h.lookup? hlookup⟩)

/-- The constructor of unions returns the union. -/
theorem isUnionOf_union (h : t.InOrder) (hissued : ∀ id ∈ members, t.Issued id)
    (hnumbered : ((union members).run t).2.Numbered) :
    ((union members).run t).2.IsUnionOf members ((union members).run t).1 := by
  have hkept := (Grown.union h hissued).kept
  rw [isUnionOf_iff, hkept.flatMembers_eq hissued]
  obtain ⟨hnone, hrun⟩ | ⟨member, hone, hrun⟩ | ⟨htwo, hrun⟩ := union_cases t members
  · rw [hrun]
    exact Or.inl ⟨hnone, rfl⟩
  · rw [hrun]
    exact Or.inr (Or.inl hone)
  · rw [hrun] at hnumbered ⊢
    exact Or.inr (Or.inr ⟨htwo, lookup?_intern hnumbered⟩)

/-- What the constructor of unions returns is a type of the table. -/
theorem issued_union (h : t.InOrder) (hissued : ∀ id ∈ members, t.Issued id) :
    ((union members).run t).2.Issued ((union members).run t).1 := by
  obtain ⟨-, hrun⟩ | ⟨member, hone, hrun⟩ | ⟨-, hrun⟩ := union_cases t members
  · rw [hrun]
    exact h.issued_intrinsic .never
  · rw [hrun]
    refine (h.of_mem_flatMembers hissued ?_).1
    rw [hone]
    exact List.mem_singleton_self member
  · rw [hrun]
    exact issued_intern t _

theorem IsUnionOf.issued (h : t.InOrder) (hissued : ∀ id ∈ members, t.Issued id)
    (hunion : t.IsUnionOf members id) : t.Issued id := by
  obtain ⟨-, rfl⟩ | hone | ⟨-, hlookup⟩ := isUnionOf_iff.mp hunion
  · exact h.issued_intrinsic .never
  · refine (h.of_mem_flatMembers hissued ?_).1
    rw [hone]
    exact List.mem_singleton_self id
  · exact issued_iff.mpr ⟨_, hlookup⟩

theorem InOrder.flatten_intrinsic (h : t.InOrder) (kind : Intrinsic) :
    t.flatten (.ofIntrinsic kind) = [.ofIntrinsic kind] := by
  refine flatten_of_not_union fun inner => ?_
  rw [h.keywords kind]
  simp

end Unions

/-! ## One after the other -/

section Sequences

variable {α β : Type} {f : α → StateM TypeTable β} {Given : TypeTable → α → Prop}
  {type : β → TypeId} {t : TypeTable} {l : List α}

/-- A computation that keeps a table in order which has what it is given, and returns a type that
the table has then. -/
structure Grows (f : α → StateM TypeTable β) (Given : TypeTable → α → Prop) (type : β → TypeId) :
    Prop where
  given : ∀ {t t' a}, t.KeptBy t' → Given t a → Given t' a
  grown : ∀ {t a}, t.InOrder → Given t a → t.Grown ((f a).run t).2
  issued : ∀ {t a}, t.InOrder → Given t a → ((f a).run t).2.Issued (type ((f a).run t).1)

theorem Grows.mapM (hf : Grows f Given type) (h : t.InOrder) (hgiven : ∀ a ∈ l, Given t a) :
    t.Grown ((l.mapM f).run t).2 ∧
      ∀ b ∈ ((l.mapM f).run t).1, ((l.mapM f).run t).2.Issued (type b) := by
  induction l generalizing t with
  | nil => exact ⟨Grown.refl h, fun _ hb => absurd hb List.not_mem_nil⟩
  | cons a l ih =>
    rw [List.forall_mem_cons] at hgiven
    have hgrown := hf.grown h hgiven.1
    obtain ⟨hgrown', hissued⟩ := ih hgrown.inOrder fun other hother =>
      hf.given hgrown.kept (hgiven.2 other hother)
    rw [List.mapM_cons]
    exact ⟨hgrown.trans hgrown',
      List.forall_mem_cons.mpr ⟨hgrown'.kept.issued (hf.issued h hgiven.1), hissued⟩⟩

/-- What is made of each element is made of it in the last table too: what one of them adds to the
table does not disturb those before it. -/
theorem Grows.forall₂_mapM (hf : Grows f Given type) {R : TypeTable → α → β → Prop}
    (hmade : ∀ {t a}, t.InOrder → Given t a → ((f a).run t).2.Numbered →
      R ((f a).run t).2 a ((f a).run t).1)
    (hkept : ∀ {t t' a b}, t.KeptBy t' → t.InOrder → Given t a → R t a b → R t' a b)
    (h : t.InOrder) (hgiven : ∀ a ∈ l, Given t a) (hnumbered : ((l.mapM f).run t).2.Numbered) :
    List.Forall₂ (R ((l.mapM f).run t).2) l ((l.mapM f).run t).1 := by
  induction l generalizing t with
  | nil => exact List.Forall₂.nil
  | cons a l ih =>
    rw [List.forall_mem_cons] at hgiven
    have hgrown := hf.grown h hgiven.1
    have hrest : ∀ other ∈ l, Given ((f a).run t).2 other := fun other hother =>
      hf.given hgrown.kept (hgiven.2 other hother)
    have hgrown' := (hf.mapM hgrown.inOrder hrest).1
    rw [List.mapM_cons] at hnumbered ⊢
    have hfirst := hmade h hgiven.1 (hgrown'.kept.numbered hnumbered)
    exact List.Forall₂.cons
      (hkept hgrown'.kept hgrown.inOrder (hf.given hgrown.kept hgiven.1) hfirst)
      (ih hgrown.inOrder hrest hnumbered)

end Sequences

end TypeTable

end Assist.Types
