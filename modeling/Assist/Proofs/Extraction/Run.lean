import Assist.Extraction.Edit

/-!
# Runs of an extraction

An extraction talks to a host, and a host may remember what it was asked. `Yields x s a s'` says
that `x`, begun with the host in state `s`, succeeds with `a` and leaves the host in state `s'`. The
host is any one that answers from a state, so its answers may change from one question to the next.

For every part of an extraction there is one lemma that says when it succeeds and with what
(`yields_editOf`, `yields_moveFunction`, …, `yields_requestedEdit`). Everything else about
successful requests is drawn from these, without unfolding the parts again.
-/

namespace Assist.Extraction

open Assist.Text Assist.Signature Assist.Syntax

variable {σ α β : Type}

/-- What a host in state `s` answers to a question, and the state it is in then. -/
def reply (question : StateM σ α) (s : σ) : α × σ := question.run s

/-- How a computation ends that is begun with the host in state `s`, and the state it leaves the
host in. -/
def outcome (x : ExceptT Failure (StateM σ) α) (s : σ) : Except Failure α × σ := x.run.run s

/-- Begun with the host in state `s`, the computation succeeds with `a` and leaves the host in
state `s'`. -/
def Yields (x : ExceptT Failure (StateM σ) α) (s : σ) (a : α) (s' : σ) : Prop :=
  outcome x s = (.ok a, s')

instance [DecidableEq α] [DecidableEq σ] (x : ExceptT Failure (StateM σ) α) (s : σ) (a : α)
    (s' : σ) : Decidable (Yields x s a s') :=
  match hx : outcome x s with
  | (.error _, _) => isFalse fun h => by simp [Yields, hx] at h
  | (.ok b, t) => decidable_of_iff (b = a ∧ t = s') (by simp [Yields, hx])

@[simp] theorem yields_pure {a b : α} {s s' : σ} :
    Yields (pure b : ExceptT Failure (StateM σ) α) s a s' ↔ a = b ∧ s' = s := by
  show ((.ok b, s) : Except Failure α × σ) = (.ok a, s') ↔ _
  simp [eq_comm]

/-- A sequence succeeds exactly if its first part does, and then its second part from where the
first one left the host. -/
@[simp] theorem yields_bind {x : ExceptT Failure (StateM σ) α}
    {f : α → ExceptT Failure (StateM σ) β} {s s'' : σ} {b : β} :
    Yields (x >>= f) s b s'' ↔ ∃ a s', Yields x s a s' ∧ Yields (f a) s' b s'' := by
  have hbind : outcome (x >>= f) s =
      match outcome x s with
      | (.ok a, s') => outcome (f a) s'
      | (.error e, s') => (.error e, s') := by
    show (ExceptT.bindCont f (outcome x s).1).run (outcome x s).2 = _
    rcases outcome x s with ⟨e | a, s'⟩ <;> rfl
  unfold Yields
  rw [hbind]
  rcases outcome x s with ⟨e | a, s'⟩
  · simp
  · constructor
    · exact fun h => ⟨a, s', rfl, h⟩
    · rintro ⟨a', t, heq, h⟩
      cases heq
      exact h

/-- A question to the host always gets an answer. -/
@[simp] theorem yields_liftM {question : StateM σ α} {s s' : σ} {a : α} :
    Yields (liftM question : ExceptT Failure (StateM σ) α) s a s' ↔ reply question s = (a, s') := by
  show (((.ok (reply question s).1, (reply question s).2) : Except Failure α × σ) = (.ok a, s')) ↔ _
  rcases reply question s with ⟨b, t⟩
  simp

/-- A step that asks the host nothing succeeds as its result does, whatever failure its error is. -/
theorem yields_mapError {ε : Type} (failure : ε → Failure) {x : Except ε α} {s s' : σ} {a : α} :
    Yields (ExceptT.mk (pure (x.mapError failure)) : ExceptT Failure (StateM σ) α) s a s' ↔
      x = .ok a ∧ s' = s := by
  cases x with
  | error e =>
    show ((.error (failure e), s) : Except Failure α × σ) = (.ok a, s') ↔ _
    simp
  | ok b =>
    show ((.ok b, s) : Except Failure α × σ) = (.ok a, s') ↔ _
    simp [eq_comm]

@[simp] theorem yields_ofRefusal {x : Except Refusal α} {s s' : σ} {a : α} :
    Yields (ofRefusal x : ExceptT Failure (StateM σ) α) s a s' ↔ x = .ok a ∧ s' = s :=
  yields_mapError .refused

@[simp] theorem yields_ofFault {x : Except Fault α} {s s' : σ} {a : α} :
    Yields (ofFault x : ExceptT Failure (StateM σ) α) s a s' ↔ x = .ok a ∧ s' = s :=
  yields_mapError .fault

@[simp] theorem orRefuse_eq_ok_iff {value : Option α} {error : Refusal} {a : α} :
    orRefuse value error = .ok a ↔ value = some a := by
  cases value <;> simp [orRefuse]

/-- The host that has a fixed edit for each of some actions and leaves all else to the library. -/
def Host.ofTable (answers : List (String × EditInfo)) : Host (StateM Unit) :=
  Host.standard fun request => pure (answers.lookup request.actionName)

/-! ## The parts of an extraction -/

variable {host : Host (StateM σ)} {tree : Tree} {request : Request} {s s' : σ}

theorem yields_editOf {action : String} {edit : EditInfo} :
    Yields (editOf host request action) s edit s' ↔
      reply (host.edits { request with actionName := action }) s = (some edit, s') ∧
        edit.edits ≠ [] := by
  simp only [editOf, yields_bind, yields_liftM, yields_ofRefusal, orRefuse_eq_ok_iff,
    Option.filter_eq_some_iff]
  constructor
  · rintro ⟨answer, t, hanswer, ⟨rfl, hne⟩, rfl⟩
    exact ⟨hanswer, by simpa using hne⟩
  · rintro ⟨hanswer, hne⟩
    exact ⟨some edit, s', hanswer, ⟨rfl, by simpa using hne⟩, rfl⟩

/-- A function that is moved goes to where the host would put a constant, or above the statement,
or it stays where it is if there is no statement. -/
theorem yields_moveFunction {variant : Variant} {script moved : Script} :
    Yields (moveFunction host tree request variant script) s moved s' ↔
      if variant = .localArrow then
        ∃ constant anchor, Yields (editOf host request constantAction) s constant s' ∧
          (constant.edits.head?.bind fun file => file.textChanges.head?) = some anchor ∧
          moveAboveAnchor tree.source anchor script = .ok moved
      else s' = s ∧ match tree.enclosing? 2 request.selection.start with
        | some statement => ∃ start, aboveStatement tree statement = .ok start ∧
            script.moveBody start = .ok moved
        | none => moved = script := by
  unfold moveFunction
  by_cases hlocal : variant = .localArrow
  · rw [if_pos hlocal, if_pos hlocal]
    simp only [yields_bind, yields_ofRefusal, orRefuse_eq_ok_iff]
    constructor
    · rintro ⟨constant, s₁, hconstant, anchor, s₂, ⟨hanchor, rfl⟩, hmove, rfl⟩
      exact ⟨constant, anchor, hconstant, hanchor, hmove⟩
    · rintro ⟨constant, anchor, hconstant, hanchor, hmove⟩
      exact ⟨constant, s', hconstant, anchor, s', ⟨hanchor, rfl⟩, hmove, rfl⟩
  · rw [if_neg hlocal, if_neg hlocal]
    cases tree.enclosing? 2 request.selection.start with
    | none => simp [and_comm]
    | some statement =>
      simp only [yields_bind, yields_ofFault, yields_ofRefusal]
      constructor
      · rintro ⟨start, s₁, ⟨hstart, rfl⟩, hmove, rfl⟩
        exact ⟨rfl, start, hstart, hmove⟩
      · rintro ⟨rfl, start, hstart, hmove⟩
        exact ⟨start, s', ⟨hstart, rfl⟩, hmove, rfl⟩

/-- An edit of an arrow function turns the text of the function into that of an arrow function,
moves it, and asks the host for the place of its name. -/
theorem yields_arrowEdit {variant : Variant} {script : Script} {fileName : String}
    {renameFile : Option String} {info : EditInfo} :
    Yields (arrowEdit host tree request variant script fileName renameFile) s info s' ↔
      ∃ name arrow moved s₁ renameAt,
        declaredName? script.body.newText.toList = some name ∧
        toArrow? script.body.newText.toList = some arrow ∧
        Yields (moveFunction host tree request variant
          { script with body := { script.body with newText := String.ofList arrow } }) s moved s₁ ∧
        reply (host.locateName [⟨fileName, moved.toRelocatedChanges⟩] fileName
          (String.ofList name) true) s₁ = (renameAt, s') ∧
        info = ⟨[⟨fileName, moved.toRelocatedChanges⟩], renameFile, renameAt⟩ := by
  simp only [arrowEdit, yields_bind, yields_ofRefusal, orRefuse_eq_ok_iff, yields_liftM,
    yields_pure]
  constructor
  · rintro ⟨name, s₁, ⟨hname, rfl⟩, arrow, s₂, ⟨harrow, rfl⟩, moved, s₃, hmove, renameAt, s₄,
      hat, rfl, rfl⟩
    exact ⟨name, arrow, moved, s₃, renameAt, hname, harrow, hmove, hat, rfl⟩
  · rintro ⟨name, arrow, moved, s₁, renameAt, hname, harrow, hmove, hat, rfl⟩
    exact ⟨name, s, ⟨hname, rfl⟩, arrow, s, ⟨harrow, rfl⟩, moved, s₁, hmove, renameAt, s', hat,
      rfl, rfl⟩

theorem yields_headerOfComponent {signature name : String} {header : List Char} :
    Yields (headerOfComponent host request signature name) s header s' ↔
      ∃ function names printed s₁, reply (host.readSignature signature) s = (some function, s₁) ∧
        plainNames function.parameters = .ok names ∧
        reply (host.writeSignature (componentOf name function names) request.layout) s₁ =
          (printed, s') ∧
        openHeader? printed.toList = some header := by
  simp only [headerOfComponent, yields_bind, yields_ofRefusal, orRefuse_eq_ok_iff, yields_liftM]
  constructor
  · rintro ⟨_, s₁, hread, function, s₂, ⟨rfl, rfl⟩, names, s₃, ⟨hnames, rfl⟩, printed, s₄, hwrite,
      hheader, rfl⟩
    exact ⟨function, names, printed, s₃, hread, hnames, hwrite, hheader⟩
  · rintro ⟨function, names, printed, s₁, hread, hnames, hwrite, hheader⟩
    exact ⟨some function, s₁, hread, function, s₁, ⟨rfl, rfl⟩, names, s₁, ⟨hnames, rfl⟩, printed,
      s', hwrite, hheader, rfl⟩

/-- An edit of a component takes the first line of the function, without the blanks before it, for
its signature and puts the header of a component in its place; the call becomes an element. -/
theorem yields_componentEdit {script : Script} {fileName : String} {renameFile : Option String}
    {info : EditInfo} :
    Yields (componentEdit host tree request script fileName renameFile) s info s' ↔
      ∃ names name header arguments renameAt s₁,
        tree.usedNames = .ok names ∧
        reply (host.freshName componentBaseName names) s = (name, s₁) ∧
        Yields (headerOfComponent host request
          (String.ofList ((trimStart script.body.newText.toList).takeWhile (· != '\n'))) name)
          s₁ header s' ∧
        argumentsOf? script.callSite.newText = some arguments ∧
        Span.stop? ⟨script.callSite.span.start, 1⟩ = some renameAt ∧
        info = ⟨[⟨fileName, script.leading ++
          [{ script.callSite with newText := elementText name arguments },
            { script.body with newText := String.ofList (leadingBlank script.body.newText.toList ++
              header ++ '\n' ::
                ((trimStart script.body.newText.toList).dropWhile (· != '\n')).drop 1) }]⟩],
          renameFile, some renameAt⟩ := by
  simp only [componentEdit, yields_bind, yields_ofRefusal, yields_ofFault, orRefuse_eq_ok_iff,
    yields_liftM, yields_pure]
  constructor
  · rintro ⟨names, s₁, ⟨hnames, rfl⟩, name, s₂, hname, header, s₃, hheader, arguments, s₄,
      ⟨harguments, rfl⟩, renameAt, s₅, ⟨hat, rfl⟩, rfl, rfl⟩
    exact ⟨names, name, header, arguments, renameAt, s₂, hnames, hname, hheader, harguments, hat,
      rfl⟩
  · rintro ⟨names, name, header, arguments, renameAt, s₁, hnames, hname, hheader, harguments, hat,
      rfl⟩
    exact ⟨names, s, ⟨hnames, rfl⟩, name, s₁, hname, header, s', hheader, arguments, s',
      ⟨harguments, rfl⟩, renameAt, s', ⟨hat, rfl⟩, rfl, rfl⟩

theorem yields_variantEdit {origin : String} {variant : Variant} {info : EditInfo} :
    Yields (variantEdit host tree request origin variant) s info s' ↔
      ∃ answer file files script s₁, Yields (editOf host request origin) s answer s₁ ∧
        answer.edits = file :: files ∧ Script.ofChanges file.textChanges = .ok script ∧
        if variant = .component then
          Yields (componentEdit host tree request script file.fileName answer.renameFile) s₁ info s'
        else Yields (arrowEdit host tree request variant script file.fileName answer.renameFile)
          s₁ info s' := by
  simp only [variantEdit, yields_bind]
  constructor
  · rintro ⟨answer, s₁, hanswer, h⟩
    cases hedits : answer.edits with
    | nil => simp [hedits] at h
    | cons file files =>
      simp only [hedits, yields_bind, yields_ofRefusal] at h
      obtain ⟨script, s₂, ⟨hscript, rfl⟩, h⟩ := h
      refine ⟨answer, file, files, script, s₂, hanswer, hedits, hscript, ?_⟩
      cases variant <;> simpa using h
  · rintro ⟨answer, file, files, script, s₁, hanswer, hedits, hscript, h⟩
    refine ⟨answer, s₁, hanswer, ?_⟩
    simp only [hedits, yields_bind, yields_ofRefusal]
    refine ⟨script, s₁, ⟨hscript, rfl⟩, ?_⟩
    cases variant <;> simpa using h

/-- A request has an edit exactly if its action is a variant and the variant has one. -/
theorem yields_requestedEdit {info : EditInfo} :
    Yields (requestedEdit host tree request) s (some info) s' ↔
      ∃ origin variant, Variant.ofActionName? request.actionName = some (origin, variant) ∧
        Yields (variantEdit host tree request origin variant) s info s' := by
  unfold requestedEdit
  cases Variant.ofActionName? request.actionName with
  | none => simp
  | some found =>
    obtain ⟨origin, variant⟩ := found
    simp only [yields_bind, yields_pure, Option.some.injEq, Prod.mk.injEq]
    constructor
    · rintro ⟨_, _, h, rfl, rfl⟩
      exact ⟨origin, variant, ⟨rfl, rfl⟩, h⟩
    · rintro ⟨_, _, ⟨rfl, rfl⟩, h⟩
      exact ⟨info, s', h, rfl, rfl⟩

/-- A request has no edit and does not fail exactly if its action is not a variant. -/
theorem yields_requestedEdit_none :
    Yields (requestedEdit host tree request) s none s' ↔
      Variant.ofActionName? request.actionName = none ∧ s' = s := by
  unfold requestedEdit
  cases Variant.ofActionName? request.actionName with
  | none => simp
  | some found =>
    simp only [yields_bind, yields_pure]
    simp

end Assist.Extraction
