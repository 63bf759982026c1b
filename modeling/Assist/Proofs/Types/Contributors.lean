import Assist.Types.Shape
import Mathlib.Data.List.Nodup
import Mathlib.Data.List.Perm.Basic

/-!
# Properties to complete with

The properties that an object literal can be completed with come from the members of its type that
contribute (`contributors`), and which are offered is decided by these alone (`offered`). Several
members offer the properties whose name is declared once among them, so their names differ; the
order of the members is the order of what they offer (`offered_perm`).
-/

namespace Assist.Types.Oracle

/-- The members of a type that have properties to complete with. -/
def contributors (o : Oracle) (ty : TypeId) : List TypeId :=
  ((o.info ty).members.getD [ty]).filter o.contributes

/-- The properties of some types, one after the other. -/
def propertiesOf (o : Oracle) (types : List TypeId) : List Property :=
  types.flatMap fun type => (o.info type).properties

/-- The properties that are offered when these are the members that contribute. -/
def offered (o : Oracle) (contributing : List TypeId) : List Property :=
  if contributing.length ≤ 1 then o.propertiesOf contributing
  else (o.propertiesOf contributing).filter fun property =>
    (o.propertiesOf contributing).countP (fun other => other.name == property.name) ≤ 1

theorem completableProperties_eq_offered (o : Oracle) (ty : TypeId) :
    o.completableProperties ty = o.offered (o.contributors ty) := rfl

/-- Names that are declared more than once are left out, so the names that are left differ. -/
theorem nodup_name_of_countP_le_one (properties : List Property) :
    ((properties.filter fun property =>
      properties.countP (fun other => other.name == property.name) ≤ 1).map
        Property.name).Nodup := by
  rw [List.nodup_iff_count_le_one]
  intro name
  rw [List.count, List.countP_map]
  by_cases hnone : ∃ property ∈ properties.filter fun property =>
      properties.countP (fun other => other.name == property.name) ≤ 1, property.name = name
  · obtain ⟨property, hproperty, rfl⟩ := hnone
    have hone := of_decide_eq_true (List.mem_filter.mp hproperty).2
    exact Nat.le_trans List.filter_sublist.countP_le hone
  · have hzero : (properties.filter fun property =>
        properties.countP (fun other => other.name == property.name) ≤ 1).countP
          ((fun other => other == name) ∘ Property.name) = 0 := by
      rw [List.countP_eq_zero]
      intro property hproperty hname
      exact hnone ⟨property, hproperty, beq_iff_eq.mp hname⟩
    omega

/-- A declared name is counted at least once, so to be counted at most once is to be counted
once. -/
theorem filter_countP_eq (properties : List Property) :
    (properties.filter fun property =>
      properties.countP (fun other => other.name == property.name) ≤ 1) =
    properties.filter fun property => (properties.map Property.name).count property.name = 1 := by
  refine List.filter_congr fun property hproperty => ?_
  have hpos : 0 < (properties.map Property.name).count property.name :=
    List.count_pos_iff.mpr (List.mem_map_of_mem hproperty)
  have hcount : properties.countP (fun other => other.name == property.name) =
      (properties.map Property.name).count property.name := by
    rw [List.count, List.countP_map]
    rfl
  rw [hcount, decide_eq_decide]
  omega

section Offered

variable {o : Oracle} {contributing contributing' : List TypeId}

theorem offered_of_length_le_one (h : contributing.length ≤ 1) :
    o.offered contributing = o.propertiesOf contributing := if_pos h

theorem offered_of_two_le_length (h : 2 ≤ contributing.length) :
    o.offered contributing = (o.propertiesOf contributing).filter fun property =>
      ((o.propertiesOf contributing).map Property.name).count property.name = 1 := by
  rw [offered, if_neg (by omega), filter_countP_eq]

theorem nodup_name_offered (h : 2 ≤ contributing.length) :
    ((o.offered contributing).map Property.name).Nodup := by
  rw [offered, if_neg (by omega)]
  exact nodup_name_of_countP_le_one _

/-- The same members in another order offer the same properties in another order. -/
theorem offered_perm (h : contributing.Perm contributing') :
    (o.offered contributing).Perm (o.offered contributing') := by
  have hproperties : (o.propertiesOf contributing).Perm (o.propertiesOf contributing') :=
    h.flatMap_right _
  unfold offered
  rw [h.length_eq]
  split
  · exact hproperties
  · simp only [hproperties.countP_eq]
    exact hproperties.filter _

end Offered

/-- The properties to complete with have different names, unless one member alone has them and
repeats a name. -/
theorem nodup_name_completableProperties (o : Oracle) (ty : TypeId)
    (h : ∀ object, o.contributors ty = [object] →
      ((o.info object).properties.map Property.name).Nodup) :
    ((o.completableProperties ty).map Property.name).Nodup := by
  rw [completableProperties_eq_offered]
  by_cases hone : (o.contributors ty).length ≤ 1
  · rw [offered_of_length_le_one hone]
    cases hcontributors : o.contributors ty with
    | nil => exact List.nodup_nil
    | cons object rest =>
      rw [hcontributors, List.length_cons] at hone
      obtain rfl : rest = [] := List.eq_nil_of_length_eq_zero (by omega)
      rw [propertiesOf, List.flatMap_singleton]
      exact h object hcontributors
  · exact nodup_name_offered (by omega)

end Assist.Types.Oracle
