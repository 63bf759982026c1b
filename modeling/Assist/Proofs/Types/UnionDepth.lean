import Assist.Types.Shape
import Mathlib.Data.List.Basic
import Mathlib.Logic.Relation

/-!
# Unions inside unions

Every question about the shape of a type follows unions into their members, but no deeper than
`maxUnionDepth` levels. Here the same rules are stated without a bound: `Callable` and `AllOf` are
the least relations that satisfy the rule of one level (`callable_iff`, `allOf_iff`), whatever the
graph of types looks like. As long as no chain of unions is longer than the bound
(`NestedAtMost`), the bound is never noticed: `shape_eq_unboundedShape` says so for each question
and for the shape. The bound is exact, since a chain of one union more is not followed to its end.
-/

namespace Assist.Types

namespace Oracle

variable {o : Oracle} {ty member : TypeId} {depth : Nat} {verdict : TypeInfo → Option Bool}

/-! ## The rules without a bound -/

/-- The second type is a member of the first, which is a union. -/
def MemberOf (o : Oracle) (ty member : TypeId) : Prop := member ∈ (o.info ty).members.getD []

/-- A type that can be called, or a union with a callable member. -/
inductive Callable (o : Oracle) : TypeId → Prop
  | itself {ty : TypeId} : 0 < (o.info ty).calls → Callable o ty
  | ofMember {ty member : TypeId} : o.MemberOf ty member → Callable o member → Callable o ty

/-- A type that the verdict holds of, or one that it leaves open and that has defined members, to
all of which this applies. -/
inductive AllOf (o : Oracle) (verdict : TypeInfo → Option Bool) : TypeId → Prop
  | decided {ty : TypeId} : verdict (o.info ty) = some true → AllOf o verdict ty
  | ofMembers {ty : TypeId} : verdict (o.info ty) = none → o.definedMembers ty ≠ [] →
      (∀ member ∈ o.definedMembers ty, AllOf o verdict member) → AllOf o verdict ty

open Classical in
/-- The shape of a type by the rules without a bound. -/
noncomputable def unboundedShape (o : Oracle) (ty : TypeId) : ValueShape :=
  if (o.info ty).isUndefined then .none
  else if o.Callable ty then .function
  else if o.AllOf stringVerdict ty then .string
  else if o.AllOf booleanVerdict ty then .boolean
  else if o.AllOf arrayVerdict ty then .array
  else if o.AllOf plainObjectVerdict ty then .plainObject
  else .none

theorem callable_iff :
    o.Callable ty ↔ 0 < (o.info ty).calls ∨ ∃ member, o.MemberOf ty member ∧ o.Callable member := by
  constructor
  · intro h
    cases h with
    | itself hcalls => exact Or.inl hcalls
    | ofMember hmember hcallable => exact Or.inr ⟨_, hmember, hcallable⟩
  · rintro (hcalls | ⟨member, hmember, hcallable⟩)
    · exact .itself hcalls
    · exact .ofMember hmember hcallable

theorem allOf_iff :
    o.AllOf verdict ty ↔ match verdict (o.info ty) with
      | some answer => answer = true
      | none => o.definedMembers ty ≠ [] ∧
          ∀ member ∈ o.definedMembers ty, o.AllOf verdict member := by
  constructor
  · intro h
    cases h with
    | decided hverdict => rw [hverdict]
    | ofMembers hverdict hsome hall =>
      rw [hverdict]
      exact ⟨hsome, hall⟩
  · cases hverdict : verdict (o.info ty) with
    | none => exact fun h => .ofMembers hverdict h.1 h.2
    | some answer =>
      rintro rfl
      exact .decided hverdict

/-- A type is callable exactly if some type below it can be called. -/
theorem callable_iff_exists_reachable :
    o.Callable ty ↔ ∃ below, Relation.ReflTransGen o.MemberOf ty below ∧
      0 < (o.info below).calls := by
  constructor
  · intro h
    induction h with
    | itself hcalls => exact ⟨_, .refl, hcalls⟩
    | ofMember hmember _ ih =>
      obtain ⟨below, hpath, hcalls⟩ := ih
      exact ⟨below, hpath.head hmember, hcalls⟩
  · rintro ⟨below, hpath, hcalls⟩
    induction hpath using Relation.ReflTransGen.head_induction_on with
    | refl => exact .itself hcalls
    | head hmember _ ih => exact .ofMember hmember ih

/-! ## Chains of unions -/

/-- Every type of the list is a union, and the next type is a member of it. -/
def IsUnionChain (o : Oracle) (chain : List TypeId) : Prop :=
  chain.IsChain o.MemberOf ∧ ∀ ty ∈ chain, (o.info ty).members.isSome = true

/-- No chain of unions that starts with the type has more than `depth` unions. -/
def NestedAtMost (o : Oracle) (depth : Nat) (ty : TypeId) : Prop :=
  ∀ chain, o.IsUnionChain (ty :: chain) → (ty :: chain).length ≤ depth

theorem NestedAtMost.members_eq_none (h : o.NestedAtMost 0 ty) : (o.info ty).members = none := by
  rw [← Option.not_isSome_iff_eq_none]
  intro hunion
  have hlength := h [] ⟨.singleton ty, by simpa using hunion⟩
  exact absurd hlength (by simp)

theorem NestedAtMost.ofMember (h : o.NestedAtMost (depth + 1) ty) (hmember : o.MemberOf ty member) :
    o.NestedAtMost depth member := by
  intro chain hchain
  have hunion : (o.info ty).members.isSome = true := by
    cases hmembers : (o.info ty).members with
    | some members => rfl
    | none =>
      rw [MemberOf, hmembers] at hmember
      exact absurd hmember List.not_mem_nil
  have hlonger : o.IsUnionChain (ty :: member :: chain) := by
    refine ⟨hchain.1.cons_cons hmember, ?_⟩
    intro other hother
    obtain rfl | hrest := List.mem_cons.mp hother
    · exact hunion
    · exact hchain.2 other hrest
  have hlength := h (member :: chain) hlonger
  simpa using hlength

/-- A rank that goes down from each union to the unions among its members bounds the chains. -/
theorem nestedAtMost_of_rank (rank : TypeId → Nat)
    (hrank : ∀ ty member, o.MemberOf ty member → (o.info member).members.isSome = true →
      rank member < rank ty) (ty : TypeId) : o.NestedAtMost (rank ty + 1) ty := by
  intro chain hchain
  induction chain generalizing ty with
  | nil => simp
  | cons member chain ih =>
    obtain ⟨hlinks, hunions⟩ := hchain
    obtain ⟨hmember, hlinks⟩ := List.isChain_cons_cons.mp hlinks
    have hlower := hrank ty member hmember (hunions member (by simp))
    have hlength := ih member ⟨hlinks, fun other hother => hunions other (by simp [hother])⟩
    simp only [List.length_cons] at hlength ⊢
    omega

/-! ## The bound is not noticed -/

theorem mem_definedMembers (h : member ∈ o.definedMembers ty) : o.MemberOf ty member :=
  List.mem_of_mem_filter h

theorem callableWithin_iff (h : o.NestedAtMost depth ty) :
    o.callableWithin depth ty = true ↔ o.Callable ty := by
  induction depth generalizing ty with
  | zero =>
    rw [callable_iff, callableWithin, decide_eq_true_eq]
    constructor
    · exact Or.inl
    · rintro (hcalls | ⟨member, hmember, -⟩)
      · exact hcalls
      · rw [MemberOf, h.members_eq_none] at hmember
        exact absurd hmember List.not_mem_nil
  | succ depth ih =>
    rw [callable_iff, callableWithin, Bool.or_eq_true, decide_eq_true_eq, List.any_eq_true]
    refine or_congr_right (exists_congr fun member => ?_)
    exact and_congr_right fun hmember => ih (h.ofMember hmember)

theorem allWithin_iff (h : o.NestedAtMost depth ty) :
    o.allWithin verdict depth ty = true ↔ o.AllOf verdict ty := by
  induction depth generalizing ty with
  | zero =>
    have hnone : o.definedMembers ty = [] := by
      rw [definedMembers, h.members_eq_none]
      rfl
    rw [allOf_iff, allWithin, hnone]
    cases verdict (o.info ty) with
    | none => simp
    | some answer => simp
  | succ depth ih =>
    rw [allOf_iff, allWithin]
    cases verdict (o.info ty) with
    | some answer => rfl
    | none =>
      simp only [Bool.and_eq_true, Bool.not_eq_true', List.isEmpty_eq_false_iff, List.all_eq_true]
      refine and_congr_right fun _ => forall₂_congr fun member hmember => ?_
      exact ih (h.ofMember (mem_definedMembers hmember))

/-- **The bound is not noticed.** Of a type below which at most 32 unions are nested in one another,
each question about its shape has the answer that the rules without a bound give, and so has the
question for the shape. In particular the type is a function if some type can be called that is
reached from it through members of unions. -/
theorem shape_eq_unboundedShape (o : Oracle) (ty : TypeId) (h : o.NestedAtMost 32 ty) :
    (o.isFunction ty = true ↔ o.Callable ty) ∧
      (o.isString ty = true ↔ o.AllOf stringVerdict ty) ∧
      (o.isBoolean ty = true ↔ o.AllOf booleanVerdict ty) ∧
      (o.isArray ty = true ↔ o.AllOf arrayVerdict ty) ∧
      (o.isPlainObject ty = true ↔ o.AllOf plainObjectVerdict ty) ∧
      o.shape ty = o.unboundedShape ty ∧
      (o.isFunction ty = true ↔ ∃ below, Relation.ReflTransGen o.MemberOf ty below ∧
        0 < (o.info below).calls) := by
  have hfunction : o.isFunction ty = true ↔ o.Callable ty := callableWithin_iff h
  have hstring : o.isString ty = true ↔ o.AllOf stringVerdict ty := allWithin_iff h
  have hboolean : o.isBoolean ty = true ↔ o.AllOf booleanVerdict ty := allWithin_iff h
  have harray : o.isArray ty = true ↔ o.AllOf arrayVerdict ty := allWithin_iff h
  have hobject : o.isPlainObject ty = true ↔ o.AllOf plainObjectVerdict ty := allWithin_iff h
  refine ⟨hfunction, hstring, hboolean, harray, hobject, ?_, ?_⟩
  · classical
    exact if_congr Iff.rfl rfl <| if_congr hfunction rfl <| if_congr hstring rfl <|
      if_congr hboolean rfl <| if_congr harray rfl <| if_congr hobject rfl rfl
  · rw [hfunction, callable_iff_exists_reachable]

/-! ## A tower of unions -/

/-- The types from zero on are unions of the next type and `undefined`, up to the type `height`,
which is a string. The type after it is `undefined`. -/
def tower (height : Nat) : Oracle where
  info ty :=
    if ty.index.toNat < height then
      { TypeInfo.empty with
        flags := .union, members := some [⟨ty.index + 1⟩, ⟨UInt32.ofNat (height + 1)⟩] }
    else { TypeInfo.empty with flags := if ty.index.toNat = height then .string else .undefined }
  expectedType _ := none
  propertyTypeAt _ _ := none

theorem members_tower (height : Nat) (ty : TypeId) :
    ((tower height).info ty).members =
      if ty.index.toNat < height then some [⟨ty.index + 1⟩, ⟨UInt32.ofNat (height + 1)⟩]
      else none := by
  unfold tower
  dsimp only
  split <;> rfl

theorem nestedAtMost_tower (height : Nat) (hheight : height + 2 < UInt32.size) :
    (tower (height + 1)).NestedAtMost (height + 1) ⟨0⟩ := by
  refine nestedAtMost_of_rank (fun ty => height - ty.index.toNat) ?_ ⟨0⟩
  intro ty member hmember hunion
  have hlast : (UInt32.ofNat (height + 2)).toNat = height + 2 :=
    UInt32.toNat_ofNat_of_lt hheight
  rw [MemberOf, members_tower] at hmember
  rw [members_tower] at hunion
  split at hunion
  · rename_i hlow
    split at hmember
    · rename_i hunder
      have hnext : (ty.index + 1).toNat = ty.index.toNat + 1 := by
        rw [UInt32.toNat_add, UInt32.toNat_one]
        exact Nat.mod_eq_of_lt (Nat.lt_of_le_of_lt (by omega) hheight)
      obtain rfl | rfl := List.mem_pair.mp hmember
      · simp only [hnext] at hlow ⊢
        omega
      · simp only [hlast] at hlow
        omega
    · exact absurd hmember List.not_mem_nil
  · exact absurd hunion (by simp)

/-- The string at the end of 32 nested unions is found. -/
theorem shape_tower :
    (tower 32).NestedAtMost 32 ⟨0⟩ ∧ (tower 32).shape ⟨0⟩ = .string ∧
      (tower 32).unboundedShape ⟨0⟩ = .string := by
  have hshape : (tower 32).shape ⟨0⟩ = .string := by decide +kernel
  have hnested := nestedAtMost_tower 31 (by decide)
  have hbound := shape_eq_unboundedShape (tower 32) ⟨0⟩ hnested
  exact ⟨hnested, hshape, hbound.2.2.2.2.2.1.symm.trans hshape⟩

-- one union more, and the string is out of reach
example : (tower 33).shape ⟨0⟩ = .none := by decide +kernel

end Oracle

end Assist.Types
