import Assist.Extraction.Catalog
import Assist.Proofs.Extraction.Run

/-!
# From a variant back to its origin

A variant is offered under the name of its origin with an ending, and the edit of a variant is made
from the host's edit of the action that is read off the name. The endings overlap: what ends in
`_local_arrow` ends in `_arrow`, too. So the name of a variant is read as it was made unless it
stands for an arrow function at the top of the file whose origin ends in `_local`
(`ofActionName?_actionName`): that name is taken for the local variant of a shorter action.

To say what a host is asked, `Host.recorded` keeps the requests for edits, and `Asks` follows the
record through an extraction. `leadsBack_iff` joins the two for all that is offered.
-/

namespace Assist.Extraction

open Assist.Text Assist.Signature Assist.Syntax

/-! ## The names of variants -/

/-- The part of the longer ending that is left of the shorter one. -/
def localMark : String := "_local"

theorem ending_localArrow : Variant.localArrow.ending.toList =
    localMark.toList ++ Variant.arrow.ending.toList := by
  decide

theorem stripEnd?_append (cs ending : List Char) : stripEnd? ending (cs ++ ending) = some cs :=
  stripEnd?_eq_some_iff.mpr rfl

/-- A text does not end in a text whose last character is another one. -/
theorem stripEnd?_append_of_getLast_ne {c d : Char} (hne : c ≠ d) (ending cs tail : List Char) :
    stripEnd? (ending ++ [c]) (cs ++ (tail ++ [d])) = none := by
  rw [Option.eq_none_iff_forall_ne_some]
  intro before h
  rw [stripEnd?_eq_some_iff, ← List.append_assoc, ← List.append_assoc] at h
  have hlast := (List.append_inj' h rfl).2
  exact hne (List.singleton_inj.mp hlast).symm

/-- A text with an ending has a longer ending exactly if what is before the short one ends in the
difference. -/
theorem stripEnd?_append_append (mark ending cs : List Char) :
    stripEnd? (mark ++ ending) (cs ++ ending) = stripEnd? mark cs := by
  refine Option.ext fun before => ?_
  rw [stripEnd?_eq_some_iff, stripEnd?_eq_some_iff, ← List.append_assoc]
  exact List.append_left_inj ending

theorem toList_actionName (variant : Variant) (origin : String) :
    (variant.actionName origin).toList = origin.toList ++ variant.ending.toList :=
  String.toList_append

/-- How the name of a variant is read. -/
theorem ofActionName?_actionName (variant : Variant) (origin : String) :
    Variant.ofActionName? (variant.actionName origin) =
      match variant, stripEnd? localMark.toList origin.toList with
      | .arrow, some stem => some (String.ofList stem, .localArrow)
      | _, _ => some (origin, variant) := by
  unfold Variant.ofActionName?
  rw [toList_actionName]
  cases variant with
  | localArrow => simp [stripEnd?_append]
  | arrow =>
    have hlocal : stripEnd? Variant.localArrow.ending.toList
        (origin.toList ++ Variant.arrow.ending.toList) =
          stripEnd? localMark.toList origin.toList := by
      rw [ending_localArrow, stripEnd?_append_append]
    simp only [List.findSome?_cons, hlocal, stripEnd?_append]
    cases stripEnd? localMark.toList origin.toList <;> simp
  | component =>
    have hlocal : stripEnd? Variant.localArrow.ending.toList
        (origin.toList ++ Variant.component.ending.toList) = none :=
      stripEnd?_append_of_getLast_ne (by decide : 'w' ≠ 'x') "_local_arro".toList origin.toList
        "_js".toList
    have harrow : stripEnd? Variant.arrow.ending.toList
        (origin.toList ++ Variant.component.ending.toList) = none :=
      stripEnd?_append_of_getLast_ne (by decide : 'w' ≠ 'x') "_arro".toList origin.toList
        "_js".toList
    simp [hlocal, harrow, stripEnd?_append]

/-- The name of the variant is not read as it was made. -/
def Variant.Misread (variant : Variant) (origin : String) : Prop :=
  variant = .arrow ∧ ∃ stem, origin = stem ++ localMark

theorem misread_iff {variant : Variant} {origin : String} :
    variant.Misread origin ↔
      variant = .arrow ∧ (stripEnd? localMark.toList origin.toList).isSome = true := by
  refine and_congr_right fun _ => ?_
  rw [Option.isSome_iff_exists]
  constructor
  · rintro ⟨stem, rfl⟩
    exact ⟨stem.toList, by rw [String.toList_append, stripEnd?_append]⟩
  · rintro ⟨stem, hstem⟩
    refine ⟨String.ofList stem, ?_⟩
    rw [← String.toList_inj, String.toList_append, String.toList_ofList]
    exact stripEnd?_eq_some_iff.mp hstem

instance (variant : Variant) (origin : String) : Decidable (variant.Misread origin) :=
  decidable_of_iff _ misread_iff.symm

theorem ofActionName?_actionName_iff {variant : Variant} {origin : String} :
    Variant.ofActionName? (variant.actionName origin) = some (origin, variant) ↔
      ¬variant.Misread origin := by
  rw [ofActionName?_actionName, misread_iff]
  cases variant with
  | arrow => cases stripEnd? localMark.toList origin.toList <;> simp
  | localArrow => simp
  | component => simp

/-! ## The variants that are offered -/

/-- The arrow functions that are offered, each with the action of the host that it comes from. -/
def RefactorInfo.arrows (refactor : RefactorInfo) : List (ActionInfo × Variant) :=
  (refactor.innerExtraction?.map fun action => (action, Variant.localArrow)).toList
    ++ (refactor.fileExtraction?.map fun action => (action, Variant.arrow)).toList

/-- The variants that are added to a refactoring, each with the action of the host that it comes
from. -/
def RefactorInfo.added (refactor : RefactorInfo) (tree : Tree) (selection : Selection) :
    List (ActionInfo × Variant) :=
  match refactor.fileExtraction?, selection.toRange?.filter (selectsElement tree) with
  | some action, some _ => [(action, .component)]
  | _, _ => refactor.arrows

/-- The kind under which a variant is offered. -/
def RefactorInfo.kindOf (refactor : RefactorInfo) : Variant → Option String
  | .component => some componentKind
  | _ => refactor.arrowKind

/-- An added variant as it is offered. -/
def RefactorInfo.offered (refactor : RefactorInfo) (added : ActionInfo × Variant) : ActionInfo :=
  added.2.offer added.1 (refactor.kindOf added.2)

section Catalog

variable {refactor : RefactorInfo} {tree : Tree} {selection : Selection}

theorem arrowOffers_eq_map : refactor.arrowOffers = refactor.arrows.map refactor.offered := by
  rw [RefactorInfo.arrows, List.map_append]
  unfold RefactorInfo.arrowOffers
  cases refactor.innerExtraction? <;> cases refactor.fileExtraction? <;> rfl

theorem mem_actions_of_fileExtraction? {action : ActionInfo}
    (h : refactor.fileExtraction? = some action) : action ∈ refactor.actions :=
  (List.mem_filter.mp (List.mem_of_find?_eq_some h)).1

theorem mem_actions_of_mem_arrows {origin : ActionInfo} {variant : Variant}
    (h : (origin, variant) ∈ refactor.arrows) : origin ∈ refactor.actions := by
  simp only [RefactorInfo.arrows, List.mem_append, Option.mem_toList, Option.map_eq_some_iff,
    Prod.mk.injEq] at h
  rcases h with ⟨action, haction, rfl, -⟩ | ⟨action, haction, rfl, -⟩
  · exact (List.mem_filter.mp (List.mem_of_find?_eq_some haction)).1
  · exact mem_actions_of_fileExtraction? haction

/-- The actions are some of the host's, and then the added variants. -/
theorem exists_kept_of_withVariants (refactor : RefactorInfo) (tree : Tree)
    (selection : Selection) :
    ∃ kept, kept.Sublist refactor.actions ∧ (refactor.withVariants tree selection).actions =
      kept ++ (refactor.added tree selection).map refactor.offered := by
  unfold RefactorInfo.withVariants RefactorInfo.added
  cases refactor.fileExtraction? with
  | none => exact ⟨_, List.Sublist.refl _, by rw [arrowOffers_eq_map]⟩
  | some action =>
    cases selection.toRange?.filter (selectsElement tree) with
    | none => exact ⟨_, List.Sublist.refl _, by rw [arrowOffers_eq_map]⟩
    | some range => exact ⟨_, List.filter_sublist, rfl⟩

/-- An added variant comes from an action of the host. -/
theorem mem_actions_of_mem_added {origin : ActionInfo} {variant : Variant}
    (h : (origin, variant) ∈ refactor.added tree selection) : origin ∈ refactor.actions := by
  unfold RefactorInfo.added at h
  split at h
  · rename_i action _ haction _
    rw [List.mem_singleton, Prod.mk.injEq] at h
    rw [h.1]
    exact mem_actions_of_fileExtraction? haction
  · exact mem_actions_of_mem_arrows h

end Catalog

/-! ## What the host is asked -/

variable {σ α β : Type}

/-- A question that is not put on the record. -/
def offRecord (question : StateM σ α) : StateM (List Request × σ) α := fun (asked, s) =>
  let (answer, s) := reply question s
  (answer, asked, s)

/-- The host that keeps the requests for edits in the order in which they come. -/
def Host.recorded (host : Host (StateM σ)) : Host (StateM (List Request × σ)) where
  edits request := fun (asked, s) =>
    let (answer, s) := reply (host.edits request) s
    (answer, asked ++ [request], s)
  locateName edits fileName name preferLast :=
    offRecord (host.locateName edits fileName name preferLast)
  freshName base names := offRecord (host.freshName base names)
  readSignature text := offRecord (host.readSignature text)
  writeSignature decl layout := offRecord (host.writeSignature decl layout)

/-- The edits that a host is asked for by a request, whether it succeeds or not. -/
def askedFor (host : Host (StateM σ)) (tree : Tree) (request : Request) (s : σ) : List Request :=
  (outcome (requestedEdit host.recorded tree request) ([], s)).2.1

/-- A computation adds requests to the record that satisfy `P`. -/
def Asks (P : List Request → Prop) (x : ExceptT Failure (StateM (List Request × σ)) α) : Prop :=
  ∀ asked s, ∃ more, P more ∧ (outcome x (asked, s)).2.1 = asked ++ more

/-- A computation asks for no edit. -/
abbrev Silent (x : ExceptT Failure (StateM (List Request × σ)) α) : Prop := Asks (· = []) x

section Asking

variable {P Q : List Request → Prop} {x : ExceptT Failure (StateM (List Request × σ)) α}
  {f : α → ExceptT Failure (StateM (List Request × σ)) β}

theorem outcome_bind (x : ExceptT Failure (StateM σ) α) (f : α → ExceptT Failure (StateM σ) β)
    (s : σ) : outcome (x >>= f) s = match outcome x s with
      | (.ok a, s') => outcome (f a) s'
      | (.error e, s') => (.error e, s') := by
  show (ExceptT.bindCont f (outcome x s).1).run (outcome x s).2 = _
  rcases outcome x s with ⟨e | a, s'⟩ <;> rfl

theorem Asks.mono (h : Asks P x) (himp : ∀ more, P more → Q more) : Asks Q x := by
  intro asked s
  obtain ⟨more, hmore, heq⟩ := h asked s
  exact ⟨more, himp more hmore, heq⟩

theorem silent_pure (a : α) :
    Silent (pure a : ExceptT Failure (StateM (List Request × σ)) α) :=
  fun _ _ => ⟨[], rfl, (List.append_nil _).symm⟩

theorem silent_ofRefusal (result : Except Refusal α) :
    Silent (ofRefusal result : ExceptT Failure (StateM (List Request × σ)) α) :=
  fun _ _ => ⟨[], rfl, (List.append_nil _).symm⟩

theorem silent_ofFault (result : Except Fault α) :
    Silent (ofFault result : ExceptT Failure (StateM (List Request × σ)) α) :=
  fun _ _ => ⟨[], rfl, (List.append_nil _).symm⟩

theorem silent_offRecord (question : StateM σ α) :
    Silent (liftM (offRecord question) : ExceptT Failure (StateM (List Request × σ)) α) :=
  fun _ _ => ⟨[], rfl, (List.append_nil _).symm⟩

/-- What comes after a step that asks for nothing may not be reached. -/
theorem Silent.bind (hx : Silent x) (hf : ∀ a, Asks P (f a)) (hnil : P []) :
    Asks P (x >>= f) := by
  intro asked s
  obtain ⟨more, rfl, heq⟩ := hx asked s
  rw [List.append_nil] at heq
  rw [outcome_bind]
  rcases hout : outcome x (asked, s) with ⟨e | a, asked', s'⟩
  · rw [hout] at heq
    exact ⟨[], hnil, by rw [List.append_nil]; exact heq⟩
  · rw [hout] at heq
    obtain rfl : asked' = asked := heq
    exact hf a asked' s'

theorem Asks.bind_silent (hx : Asks P x) (hf : ∀ a, Silent (f a)) : Asks P (x >>= f) := by
  intro asked s
  obtain ⟨more, hmore, heq⟩ := hx asked s
  refine ⟨more, hmore, ?_⟩
  rw [outcome_bind]
  rcases hout : outcome x (asked, s) with ⟨e | a, asked', s'⟩
  · rw [hout] at heq
    exact heq
  · rw [hout] at heq
    obtain ⟨_, rfl, hrest⟩ := hf a asked' s'
    rw [List.append_nil] at hrest
    exact hrest.trans heq

/-- Asking for an edit adds the request for it to the record. -/
theorem asks_editOf (host : Host (StateM σ)) (request : Request) (action : String) :
    Asks (· = [{ request with actionName := action }]) (editOf host.recorded request action) := by
  intro asked s
  refine ⟨_, rfl, ?_⟩
  unfold editOf
  rw [outcome_bind]
  rfl

/-- The requests after one for an edit come after it in the record. -/
theorem asks_editOf_bind (host : Host (StateM σ)) (request : Request) (action : String)
    {f : EditInfo → ExceptT Failure (StateM (List Request × σ)) β} (hf : ∀ a, Asks P (f a))
    (hnil : P []) :
    Asks (fun asked => ∃ rest, P rest ∧ asked = { request with actionName := action } :: rest)
      (editOf host.recorded request action >>= f) := by
  intro asked s
  obtain ⟨_, rfl, heq⟩ := asks_editOf host request action asked s
  rw [outcome_bind]
  rcases hout : outcome (editOf host.recorded request action) (asked, s) with ⟨e | a, asked', s'⟩
  · rw [hout] at heq
    exact ⟨_, ⟨[], hnil, rfl⟩, heq⟩
  · rw [hout] at heq
    obtain rfl : asked' = asked ++ [{ request with actionName := action }] := heq
    obtain ⟨rest, hrest, hmore⟩ := hf a _ s'
    refine ⟨_, ⟨rest, hrest, rfl⟩, ?_⟩
    exact hmore.trans (by simp)

end Asking

section Extraction

variable (host : Host (StateM σ)) (tree : Tree) (request : Request)

/-- Only a local variant asks for one more edit, that of the constant. -/
def MoreFor (request : Request) (variant : Variant) (asked : List Request) : Prop :=
  asked = [] ∨ variant = .localArrow ∧ asked = [{ request with actionName := constantAction }]

theorem asks_moveFunction (variant : Variant) (script : Script) :
    Asks (MoreFor request variant) (moveFunction host.recorded tree request variant script) := by
  unfold moveFunction
  split
  · rename_i hlocal
    refine Asks.mono (asks_editOf_bind host request constantAction (P := (· = [])) ?_ rfl) ?_
    · intro constant
      exact (silent_ofRefusal _).bind (fun _ => silent_ofRefusal _) rfl
    · rintro _ ⟨_, rfl, rfl⟩
      exact Or.inr ⟨hlocal, rfl⟩
  · refine Asks.mono ?_ fun _ => Or.inl
    split
    · exact (silent_ofFault _).bind (fun _ => silent_ofRefusal _) rfl
    · exact silent_pure script

theorem asks_arrowEdit (variant : Variant) (script : Script) (fileName : String)
    (renameFile : Option String) :
    Asks (MoreFor request variant)
      (arrowEdit host.recorded tree request variant script fileName renameFile) := by
  unfold arrowEdit
  refine (silent_ofRefusal _).bind (fun name => ?_) (Or.inl rfl)
  refine (silent_ofRefusal _).bind (fun arrow => ?_) (Or.inl rfl)
  refine (asks_moveFunction host tree request variant _).bind_silent fun moved => ?_
  exact (silent_offRecord _).bind (fun _ => silent_pure _) rfl

theorem silent_componentEdit (script : Script) (fileName : String) (renameFile : Option String) :
    Silent (componentEdit host.recorded tree request script fileName renameFile) := by
  unfold componentEdit headerOfComponent
  refine (silent_ofFault _).bind (fun names => ?_) rfl
  refine (silent_offRecord _).bind (fun name => ?_) rfl
  refine Silent.bind ?_ (fun header => ?_) rfl
  · refine (silent_offRecord _).bind (fun _ => ?_) rfl
    refine (silent_ofRefusal _).bind (fun function => ?_) rfl
    refine (silent_ofRefusal _).bind (fun names => ?_) rfl
    exact (silent_offRecord _).bind (fun _ => silent_ofRefusal _) rfl
  · refine (silent_ofRefusal _).bind (fun arguments => ?_) rfl
    exact (silent_ofRefusal _).bind (fun _ => silent_pure _) rfl

/-- The edit of a variant is made from the edit of its origin, and a local one also from that of the
constant. -/
theorem asks_variantEdit (origin : String) (variant : Variant) :
    Asks (fun asked => ∃ rest, MoreFor request variant rest ∧
        asked = { request with actionName := origin } :: rest)
      (variantEdit host.recorded tree request origin variant) := by
  unfold variantEdit
  refine asks_editOf_bind host request origin (fun edit => ?_) (Or.inl rfl)
  split
  · exact (silent_ofRefusal _).mono fun _ => Or.inl
  · refine (silent_ofRefusal _).bind (fun script => ?_) (Or.inl rfl)
    split
    · exact (silent_componentEdit host tree request script _ _).mono fun _ => Or.inl
    · exact asks_arrowEdit host tree request variant script _ _

theorem askedFor_of_ofActionName? {origin : String} {variant : Variant}
    (h : Variant.ofActionName? request.actionName = some (origin, variant)) (s : σ) :
    ∃ rest, MoreFor request variant rest ∧
      askedFor host tree request s = { request with actionName := origin } :: rest := by
  have hasks : Asks (fun asked => ∃ rest, MoreFor request variant rest ∧
      asked = { request with actionName := origin } :: rest)
      (requestedEdit host.recorded tree request) := by
    unfold requestedEdit
    rw [h]
    exact (asks_variantEdit host tree request origin variant).bind_silent fun _ => silent_pure _
  obtain ⟨_, ⟨rest, hrest, rfl⟩, heq⟩ := hasks [] s
  exact ⟨rest, hrest, heq⟩

end Extraction

/-! ## What leads back -/

/-- A name leads back to an action: it is read as the name of a variant of it, and whatever the
host, a request with this name asks it for the edit of the action, and for no other but that of the
constant, which a local variant needs as well. -/
structure LeadsBack (name origin : String) (variant : Variant) : Prop where
  read : Variant.ofActionName? name = some (origin, variant)
  asks : ∀ {σ : Type} (host : Host (StateM σ)) (tree : Tree) (request : Request) (s : σ),
    request.actionName = name → ∃ rest, MoreFor request variant rest ∧
      askedFor host tree request s = { request with actionName := origin } :: rest

/-- **Which variants lead back.** All that is added to the host's actions is a variant of one of
them, and its name leads back to that action unless it is misread. -/
theorem leadsBack_iff (refactor : RefactorInfo) (tree : Tree) (selection : Selection) :
    (∃ kept, kept.Sublist refactor.actions ∧ (refactor.withVariants tree selection).actions =
      kept ++ (refactor.added tree selection).map refactor.offered) ∧
    ∀ origin variant, (origin, variant) ∈ refactor.added tree selection →
      origin ∈ refactor.actions ∧
        (LeadsBack (refactor.offered (origin, variant)).name origin.name variant ↔
          ¬variant.Misread origin.name) := by
  refine ⟨exists_kept_of_withVariants refactor tree selection, ?_⟩
  intro origin variant hadded
  refine ⟨mem_actions_of_mem_added hadded, ?_⟩
  have hname : (refactor.offered (origin, variant)).name = variant.actionName origin.name := rfl
  rw [hname, ← ofActionName?_actionName_iff]
  constructor
  · exact LeadsBack.read
  · intro hread
    refine ⟨hread, ?_⟩
    intro σ host tree request s hrequest
    rw [← hrequest] at hread
    exact askedFor_of_ofActionName? host tree request hread s

/-- A refactoring with one extraction, into the scope of the file. -/
def scopeRefactor (name : String) : RefactorInfo :=
  ⟨"Extract Symbol", "Extract function",
    [⟨name, "Extract to function in global scope", none, none⟩]⟩

theorem leadsBack_function_scope :
    ((scopeRefactor "function_scope_0").withVariants (Tree.empty "") (.caret 0)).actions.map
        ActionInfo.name = ["function_scope_0", "function_scope_0_arrow"] ∧
      LeadsBack "function_scope_0_arrow" "function_scope_0" .arrow := by
  have hleads := (leadsBack_iff (scopeRefactor "function_scope_0") (Tree.empty "") (.caret 0)).2
    _ .arrow (List.mem_singleton_self _)
  exact ⟨by decide +kernel, hleads.2.mpr (by decide +kernel)⟩

/-- The variant of an action that ends in `_local` is taken for the local variant of another action,
and the host is asked for the edit of that one. -/
theorem arrow_of_local_misread :
    ((scopeRefactor "scope_local").withVariants (Tree.empty "") (.caret 0)).actions.map
        ActionInfo.name = ["scope_local", "scope_local_arrow"] ∧
      Variant.ofActionName? "scope_local_arrow" = some ("scope", .localArrow) ∧
      (askedFor (Host.ofTable [("scope_local", ⟨[⟨"a.ts", []⟩], none, none⟩)]) (Tree.empty "")
        ⟨"a.ts", Layout.standard, .caret 0, "Extract Symbol", "scope_local_arrow", ⟨false, .auto⟩⟩
        ()).map Request.actionName = ["scope"] ∧
      ¬LeadsBack "scope_local_arrow" "scope_local" .arrow := by
  have hread : Variant.ofActionName? "scope_local_arrow" = some ("scope", .localArrow) := by
    decide +kernel
  refine ⟨by decide +kernel, hread, by decide +kernel, ?_⟩
  intro hleads
  have hboth := hleads.read.symm.trans hread
  exact absurd hboth (by simp)

end Assist.Extraction
