import Assist.Wire.Completion
import Assist.Wire.Extraction
import Mathlib.Data.List.Basic

/-!
# What is written can be read

A type is `Faithful` on the wire when reading what was written for a value gives the value back. The
wire leaves out what need not be said, so the point of each proof is that nothing is taken for
something else: a field that was left out is read as the value that was left out for it; `null` is
written for no value alone (`Tangible`), so it is read as none; a number and an object keep the two
kinds of selection apart. Types are nested in types, and reading one to the depth of what was
written is enough (`readType?_writeType`).

`roundTrips_exchanged` states the result for every type of value that is exchanged.
-/

namespace Assist.Wire

open Assist.Text Assist.Signature Assist.Extraction Assist.Completion

/-- Reading what was written for a value gives the value back. -/
class Faithful (α : Type) [Wire α] : Prop where
  read?_write : ∀ value : α, read? (write value) = some value

/-- No value is written as `null`. -/
class Tangible (α : Type) [Wire α] : Prop where
  write_ne_null : ∀ value : α, write value ≠ .null

attribute [simp] Faithful.read?_write

/-! ## Plain values -/

instance : Faithful Bool := ⟨fun _ => rfl⟩
instance : Faithful String := ⟨fun _ => rfl⟩
instance : Tangible Bool := ⟨fun _ => Json.noConfusion⟩
instance : Tangible String := ⟨fun _ => Json.noConfusion⟩
instance : Tangible UInt32 := ⟨fun _ => Json.noConfusion⟩

instance : Faithful UInt32 where
  read?_write n := by
    have hbounds : (0 : Int) ≤ n.toNat ∧ (n.toNat : Int) < UInt32.size :=
      ⟨Int.natCast_nonneg _, Int.ofNat_lt.mpr n.toNat_lt_size⟩
    show (if (0 : Int) ≤ n.toNat ∧ (n.toNat : Int) < UInt32.size then
      some (UInt32.ofNat (n.toNat : Int).toNat) else none) = some n
    rw [if_pos hbounds, Int.toNat_natCast, UInt32.ofNat_toNat]

section Lists

variable {α : Type} [Wire α]

theorem mapM_read?_write [Faithful α] (values : List α) :
    (values.map write).mapM read? = some values := by
  induction values with
  | nil => rfl
  | cons value values ih => simp [ih]

instance [Faithful α] : Faithful (List α) := ⟨mapM_read?_write⟩

instance : Tangible (List α) := ⟨fun _ => Json.noConfusion⟩

instance [Faithful α] [Tangible α] : Faithful (Option α) where
  read?_write value := by
    cases value with
    | none => rfl
    | some value =>
      have hnull := Tangible.write_ne_null value
      have hread := Faithful.read?_write value
      show (match write value with
        | .null => some none
        | json => (read? json).map some) = some (some value)
      split
      · contradiction
      · rw [hread, Option.map_some]

end Lists

/-! ## Fields -/

/-- How a field is given by the fields of an object. -/
def slotIn (fields : List (String × Json)) (name : String) : Slot :=
  ((fields.lookup name).map Slot.given).getD .absent

section Fields

variable {α : Type} [Wire α]

theorem lookup_unlessNone (name key : String) (value : Option α) :
    (unlessNone key value).lookup name = if name == key then value.map write else none := by
  cases value with
  | none => simp [unlessNone]
  | some value =>
    rw [unlessNone, List.lookup_cons]
    split <;> simp_all

@[simp] theorem required_write [Faithful α] (value : α) :
    (Slot.given (write value)).required = some value :=
  Faithful.read?_write value

@[simp] theorem withDefault_write [Faithful α] (default value : α) :
    (Slot.given (write value)).withDefault default = some value :=
  Faithful.read?_write value

@[simp] theorem withDefault_absent (default : α) : Slot.absent.withDefault default = some default :=
  rfl

@[simp] theorem optional_write [Faithful α] [Tangible α] (value : Option α) :
    (Slot.given (write value)).optional = some value :=
  Faithful.read?_write value

@[simp] theorem optionalOr_write [Faithful α] [Tangible α] (value : Option α) :
    ((value.map (Slot.given ∘ write)).getD .absent).optionalOr = some value := by
  cases value with
  | none => rfl
  | some value => exact Faithful.read?_write (some value)

/-- A record that is written as an object is read from the fields of that object. -/
theorem read?_write_record {names : List String} {make : List Slot → Option α} {value : α}
    {fields : List (String × Json)} (hread : ∀ json, read? json = slots? names json >>= make)
    (hwrite : write value = .object fields) :
    read? (write value) = make (names.map (slotIn fields)) := by
  rw [hread, hwrite]
  rfl

end Fields

/-! ## Records -/

instance : Faithful Span where
  read?_write span := by
    refine (read?_write_record (fun _ => rfl) rfl).trans ?_
    simp [slotIn, List.lookup_cons]

instance : Faithful Range where
  read?_write range := by
    refine (read?_write_record (fun _ => rfl) rfl).trans ?_
    simp [slotIn, List.lookup_cons]

/-- A number is no range, and an object no number. -/
instance : Faithful Selection where
  read?_write selection := by
    cases selection with
    | caret pos =>
      show ((read? (write pos)).map Selection.caret).or ((read? (write pos)).map Selection.range) =
        some (.caret pos)
      rw [Faithful.read?_write (α := Offset)]
      rfl
    | range range =>
      show ((read? (write range)).map Selection.caret).or
        ((read? (write range)).map Selection.range) = some (.range range)
      rw [Faithful.read?_write (α := Range)]
      rfl

instance : Faithful Change where
  read?_write change := by
    refine (read?_write_record (fun _ => rfl) rfl).trans ?_
    simp [slotIn, List.lookup_cons]

instance : Faithful FileChanges where
  read?_write file := by
    refine (read?_write_record (fun _ => rfl) rfl).trans ?_
    simp [slotIn, List.lookup_cons]

instance : Faithful EditInfo where
  read?_write edit := by
    refine (read?_write_record (fun _ => rfl) rfl).trans ?_
    simp [slotIn, List.lookup_cons, List.lookup_append, lookup_unlessNone]

instance : Faithful ActionInfo where
  read?_write action := by
    refine (read?_write_record (fun _ => rfl) rfl).trans ?_
    simp [slotIn, List.lookup_cons, List.lookup_append, lookup_unlessNone]

instance : Faithful RefactorInfo where
  read?_write refactor := by
    refine (read?_write_record (fun _ => rfl) rfl).trans ?_
    simp [slotIn, List.lookup_cons]

instance : Faithful Placement := ⟨fun placement => by cases placement <;> rfl⟩
instance : Faithful QuoteStyle := ⟨fun style => by cases style <;> rfl⟩

instance : Faithful Settings where
  read?_write settings := by
    refine (read?_write_record (fun _ => rfl) rfl).trans ?_
    simp [slotIn, List.lookup_cons, Settings.keys]

instance : Faithful Preferences where
  read?_write preferences := by
    refine (read?_write_record (fun _ => rfl) rfl).trans ?_
    simp [slotIn, List.lookup_cons, Preferences.keys]

instance : Faithful Layout where
  read?_write layout := by
    refine (read?_write_record (fun _ => rfl) rfl).trans ?_
    simp [slotIn, List.lookup_cons]

instance : Faithful Extraction.Request where
  read?_write request := by
    refine (read?_write_record (fun _ => rfl) rfl).trans ?_
    simp [slotIn, List.lookup_cons]

instance : Faithful LabelDetails where
  read?_write details := by
    refine (read?_write_record (fun _ => rfl) rfl).trans ?_
    simp [slotIn, List.lookup_append, lookup_unlessNone]

instance : Tangible LabelDetails := ⟨fun _ => Json.noConfusion⟩

instance : Faithful Entry where
  read?_write entry := by
    refine (read?_write_record (fun _ => rfl) rfl).trans ?_
    obtain ⟨name, kind, kindModifiers, sortText, insertText, isSnippet, labelDetails⟩ := entry
    cases isSnippet <;>
      simp [slotIn, List.lookup_cons, List.lookup_append, lookup_unlessNone]

/-! ## Types inside types -/

theorem writeType_ne_null (type : TypeExpr) : writeType type ≠ .null := by
  cases type <;> exact Json.noConfusion

/-- The slots of a member that is written with `type` for its type. -/
theorem slots?_member (name : String) (optional : Bool) (type : Json) :
    slots? ["name", "question_token", "type_node"]
        (.object [("name", write name), ("question_token", write optional), ("type_node", type)]) =
      some [.given (write name), .given (write optional), .given type] := by
  simp [slots?, List.lookup_cons]

mutual

/-- Reading a type to the depth of what was written for it gives it back. -/
theorem readType?_writeType : ∀ (type : TypeExpr) (depth : Nat),
    (writeType type).depth ≤ depth → readType? depth (writeType type) = some type
  | .text source, depth, h => by
    obtain ⟨depth, rfl⟩ : ∃ d, depth = d + 1 :=
      ⟨depth - 1, by simp [writeType, Json.depth] at h; omega⟩
    rfl
  | .literal members, depth, h => by
    simp only [writeType, Json.depth, Json.depthOfFields] at h
    obtain ⟨depth, rfl⟩ : ∃ d, depth = d + 1 := ⟨depth - 1, by omega⟩
    have hmembers := readMembers?_writeMembers members depth (by omega)
    show ((writeMembers members).mapM (readMember? (readType? depth))).map TypeExpr.literal = _
    rw [hmembers, Option.map_some]

theorem readMembers?_writeMembers : ∀ (members : List Member) (depth : Nat),
    Json.depthOfItems (writeMembers members) ≤ depth + 1 →
      (writeMembers members).mapM (readMember? (readType? depth)) = some members
  | [], _, _ => rfl
  | member :: members, depth, h => by
    simp only [writeMembers, Json.depthOfItems] at h
    have hfirst := readMember?_writeMember member depth (by omega)
    have hrest := readMembers?_writeMembers members depth (by omega)
    rw [writeMembers, List.mapM_cons, hfirst, hrest]
    rfl

theorem readMember?_writeMember : ∀ (member : Member) (depth : Nat),
    (writeMember member).depth ≤ depth + 1 →
      readMember? (readType? depth) (writeMember member) = some member
  | .mk name optional none, _, _ => by
    rw [writeMember, readMember?, slots?_member]
    simp
  | .mk name optional (some type), depth, h => by
    simp only [writeMember, Json.depth, Json.depthOfFields] at h
    have htype := readType?_writeType type depth (by omega)
    have hnull := writeType_ne_null type
    rw [writeMember, readMember?, slots?_member]
    simp [htype]

end

instance : Faithful TypeExpr := ⟨fun type => readType?_writeType type _ (Nat.le_refl _)⟩
instance : Tangible TypeExpr := ⟨writeType_ne_null⟩

instance : Faithful PatternElement where
  read?_write element := by
    refine (read?_write_record (fun _ => rfl) rfl).trans ?_
    simp [slotIn, List.lookup_cons]

instance : Faithful Binding where
  read?_write binding := by
    cases binding with
    | identifier name => rfl
    | object elements =>
      show (read? (write elements)).map Binding.object = _
      rw [Faithful.read?_write, Option.map_some]
    | pattern source => rfl

instance : Faithful Parameter where
  read?_write parameter := by
    refine (read?_write_record (fun _ => rfl) rfl).trans ?_
    simp [slotIn, List.lookup_cons]

instance : Faithful FunctionDecl where
  read?_write decl := by
    refine (read?_write_record (fun _ => rfl) rfl).trans ?_
    simp [slotIn, List.lookup_cons]

/-! ## Every type of value -/

/-- What was written for a value is read as that value, so a JSON value that is accepted says the
same as the one that is written for what it was read as. -/
def RoundTrips (α : Type) [Wire α] : Prop :=
  (∀ value : α, read? (write value) = some value) ∧
    ∀ (json : Json) (value : α), read? json = some value →
      (read? (write value) : Option α) = read? json

theorem roundTrips_of_faithful (α : Type) [Wire α] [Faithful α] : RoundTrips α :=
  ⟨Faithful.read?_write, fun _ value hread => (Faithful.read?_write value).trans hread.symm⟩

/-- **What is written can be read**, for every type of value that is exchanged with a host or an
editor. -/
theorem roundTrips_exchanged :
    RoundTrips Span ∧ RoundTrips Range ∧ RoundTrips Selection ∧ RoundTrips Change ∧
      RoundTrips FileChanges ∧ RoundTrips EditInfo ∧ RoundTrips ActionInfo ∧
      RoundTrips RefactorInfo ∧ RoundTrips Extraction.Request ∧ RoundTrips Entry ∧
      RoundTrips FunctionDecl ∧ RoundTrips Settings ∧ RoundTrips Preferences ∧
      RoundTrips Layout := by
  refine ⟨?_, ?_, ?_, ?_, ?_, ?_, ?_, ?_, ?_, ?_, ?_, ?_, ?_, ?_⟩
  all_goals exact roundTrips_of_faithful _

end Assist.Wire
