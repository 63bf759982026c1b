import Assist.Proofs.Extraction.Script

/-!
# Moves that fail

A script can be moved in place, again and again, and whoever moves it may go on after a refusal.
`relocate` is such a call, check by check, on a script that an error does not take away; it is
`moveBody` with the old script kept where there is no new one (`run_relocate`). So a call leaves all
or nothing of a move behind: after any number of calls the script is the first one with its function
where the last call that succeeded put it (`MovedBy`), and which calls succeed is settled by the
first script (`relocations_atomic`).
-/

namespace Assist.Extraction.Script

open Assist.Text

/-! ## One call -/

/-- Move the insertion of the function of the script in hand to `start`. -/
def relocate (start : Offset) : ExceptT Refusal (StateM Script) Unit := do
  if (← get).callSite.span.stop?.isNone then throw (.invalidSpan (← get).callSite.span)
  else if !(← get).body.span.isEmpty then throw (.relocatedReplacement (← get).body.span)
  else if (← get).callSite.span.strictlyContains start then
    throw (.overlappingChanges start (← get).callSite.span)
  else modify fun script =>
    { script with body := { script.body with span := Span.emptyAt start } }

/-- Reading the script leaves it as it is. -/
theorem run_get_bind {α : Type} (f : Script → ExceptT Refusal (StateM Script) α)
    (script : Script) : (get >>= f).run.run script = (f script).run.run script := rfl

/-- A call has the answer of `moveBody`, and without a moved script it keeps the old one. -/
theorem run_relocate (start : Offset) (script : Script) :
    (relocate start).run.run script =
      match script.moveBody start with
      | .ok moved => (.ok (), moved)
      | .error refusal => (.error refusal, script) := by
  unfold moveBody relocate
  -- the checks in their order: a call that is refused ends before the script is changed
  cases hfit : script.callSite.span.stop?.isNone with
  | true => simp only [run_get_bind, hfit, if_true]; rfl
  | false =>
    cases hempty : script.body.span.isEmpty with
    | false =>
      simp only [run_get_bind, hfit, hempty, Bool.false_eq_true, if_false, Bool.not_false, if_true]
      rfl
    | true =>
      cases hinside : script.callSite.span.strictlyContains start <;>
        simp only [run_get_bind, hfit, hempty, hinside, Bool.false_eq_true, if_false,
          Bool.not_true, if_true] <;>
        rfl

/-- What one call does: all of the move, or nothing. -/
theorem relocate_cases {start : Offset} {script next : Script} {answer : Except Refusal Unit}
    (h : (relocate start).run.run script = (answer, next)) :
    (answer = .ok () ∧ script.moveBody start = .ok next) ∨
      ∃ refusal, answer = .error refusal ∧ next = script ∧
        script.moveBody start = .error refusal := by
  rw [run_relocate] at h
  cases hmove : script.moveBody start with
  | ok moved =>
    rw [hmove] at h
    obtain ⟨rfl, rfl⟩ := Prod.mk.inj h
    exact Or.inl ⟨rfl, rfl⟩
  | error refusal =>
    rw [hmove] at h
    obtain ⟨rfl, rfl⟩ := Prod.mk.inj h
    exact Or.inr ⟨refusal, rfl, rfl, rfl⟩

theorem callSite_of_relocate {start : Offset} {script next : Script} {answer : Except Refusal Unit}
    (h : (relocate start).run.run script = (answer, next)) : next.callSite = script.callSite := by
  rcases relocate_cases h with ⟨-, hmove⟩ | ⟨-, -, rfl, -⟩
  · obtain ⟨-, -, -, rfl⟩ := moveBody_eq_ok_iff.mp hmove
    rfl
  · rfl

/-! ## Any number of calls -/

/-- Calls with their answers. -/
abbrev Calls := List (Offset × Except Refusal Unit)

/-- Call for one place after the other, whatever the answers are. -/
def relocations (starts : List Offset) : StateM Script Calls :=
  starts.mapM fun start => do return (start, ← (relocate start).run)

/-- The place of the last call that succeeded. -/
def lastPlace? (calls : Calls) : Option Offset :=
  (calls.filter (·.2.isOk)).getLast?.map Prod.fst

theorem lastPlace?_ok (start : Offset) (calls : Calls) :
    lastPlace? ((start, .ok ()) :: calls) = some ((lastPlace? calls).getD start) := by
  rw [lastPlace?, List.filter_cons_of_pos rfl, List.getLast?_cons, lastPlace?]
  cases (calls.filter (·.2.isOk)).getLast? <;> rfl

/-- The first call comes first, and the others go on with the script that it leaves. -/
theorem exists_of_run_cons {start : Offset} {starts : List Offset} {script moved : Script}
    {calls : Calls} (hrun : (relocations (start :: starts)).run script = (calls, moved)) :
    ∃ answer next rest, (relocate start).run.run script = (answer, next) ∧
      (relocations starts).run next = (rest, moved) ∧ calls = (start, answer) :: rest := by
  rw [relocations, List.mapM_cons] at hrun
  obtain ⟨hcalls, hmoved⟩ := Prod.mk.inj hrun
  exact ⟨_, _, _, rfl, Prod.ext rfl hmoved, hcalls.symm⟩

/-- `moved` is `script` with its function where the calls put it, and only an insertion is put
anywhere. -/
structure MovedBy (script : Script) (calls : Calls) (moved : Script) : Prop where
  leading : moved.leading = script.leading
  callSite : moved.callSite = script.callSite
  newText : moved.body.newText = script.body.newText
  span : moved.body.span = (lastPlace? calls).elim script.body.span Span.emptyAt
  outside : ∀ start ∈ lastPlace? calls, script.body.span.isEmpty = true ∧
    ¬ (script.callSite.start < start.toNat ∧ start.toNat < script.callSite.stop)

theorem movedBy_nil (script : Script) : MovedBy script [] script :=
  ⟨rfl, rfl, rfl, rfl, fun _ h => absurd h (by simp [lastPlace?])⟩

/-- One call before others: its place counts if it succeeded and none of the others did. -/
theorem MovedBy.cons {script next moved : Script} {start : Offset} {answer : Except Refusal Unit}
    {calls : Calls} (hfit : script.callSite.stop ≤ maxOffset)
    (hcall : (relocate start).run.run script = (answer, next)) (h : MovedBy next calls moved) :
    MovedBy script ((start, answer) :: calls) moved := by
  rcases relocate_cases hcall with ⟨rfl, hmove⟩ | ⟨refusal, rfl, rfl, -⟩
  · obtain ⟨-, hempty, hapart, rfl⟩ := moveBody_eq_ok_iff.mp hmove
    have hstart : ¬ (script.callSite.start < start.toNat ∧ start.toNat < script.callSite.stop) := by
      rw [← Change.strictlyContains_iff hfit, hapart]
      exact Bool.false_ne_true
    refine ⟨h.leading, h.callSite, h.newText, ?_, ?_⟩
    · rw [h.span, lastPlace?_ok]
      cases lastPlace? calls <;> rfl
    · intro place hplace
      rw [lastPlace?_ok] at hplace
      refine ⟨hempty, ?_⟩
      cases hlast : lastPlace? calls with
      | none =>
        rw [hlast] at hplace
        exact Option.some.inj hplace ▸ hstart
      | some last =>
        rw [hlast] at hplace
        exact Option.some.inj hplace ▸ (h.outside last hlast).2
  · -- a call that failed leaves the script to the others, and its place does not count
    exact ⟨h.leading, h.callSite, h.newText, h.span, h.outside⟩

theorem movedBy_of_run {starts : List Offset} {script moved : Script} {calls : Calls}
    (hfit : script.callSite.stop ≤ maxOffset)
    (hrun : (relocations starts).run script = (calls, moved)) :
    calls.map Prod.fst = starts ∧ MovedBy script calls moved := by
  induction starts generalizing script calls with
  | nil =>
    obtain ⟨rfl, rfl⟩ := Prod.mk.inj hrun
    exact ⟨rfl, movedBy_nil script⟩
  | cons start starts ih =>
    obtain ⟨answer, next, rest, hcall, hrest, rfl⟩ := exists_of_run_cons hrun
    obtain ⟨hplaces, hmoved⟩ := ih (by rw [callSite_of_relocate hcall]; exact hfit) hrest
    exact ⟨by rw [List.map_cons, hplaces], hmoved.cons hfit hcall⟩

/-- Whether a script can be moved to a place does not change as it is moved. -/
theorem MovedBy.relocate_eq_ok_iff {script moved next : Script} {calls : Calls} {start : Offset}
    {answer : Except Refusal Unit} (h : MovedBy script calls moved)
    (hfit : script.callSite.stop ≤ maxOffset)
    (hcall : (relocate start).run.run moved = (answer, next)) :
    answer = .ok () ↔ script.body.span.isEmpty = true ∧
      ¬ (script.callSite.start < start.toNat ∧ start.toNat < script.callSite.stop) := by
  have hempty : moved.body.span.isEmpty = script.body.span.isEmpty := by
    rw [h.span]
    cases hlast : lastPlace? calls with
    | none => rfl
    | some last => rw [(h.outside last hlast).1]; rfl
  rw [← Change.strictlyContains_iff hfit, Bool.not_eq_true, ← hempty, ← h.callSite]
  rw [← h.callSite] at hfit
  rcases relocate_cases hcall with ⟨rfl, hmove⟩ | ⟨refusal, rfl, -, hmove⟩
  · obtain ⟨-, hinserted, hapart, -⟩ := moveBody_eq_ok_iff.mp hmove
    exact iff_of_true rfl ⟨hinserted, hapart⟩
  · refine iff_of_false (by simp) fun ⟨hinserted, hapart⟩ => ?_
    rw [moveBody_eq_ok_iff.mpr ⟨hfit, hinserted, hapart, rfl⟩] at hmove
    exact absurd hmove (by simp)

/-- **Moves are atomic.** A list of changes is refused for the first change that does not end at an
offset, and otherwise only if there are fewer than two; if it is accepted, the script has the
changes of the list. After any calls only the place of the function is another one: where the last
call that succeeded put it, never strictly inside the text that the call site replaces. One more
call changes nothing if it fails, and it succeeds exactly if the function is inserted and its new
place is not inside. -/
theorem relocations_atomic (changes : List Change) :
    (∀ refusal, ofChanges changes = .error refusal ↔
      (∃ before change after, changes = before ++ change :: after ∧
        (∀ c ∈ before, c.stop ≤ maxOffset) ∧ maxOffset < change.stop ∧
        refusal = .invalidSpan change.span) ∨
      (∀ c ∈ changes, c.stop ≤ maxOffset) ∧ changes.length < 2 ∧
        refusal = .missingTextChanges changes.length) ∧
    ∀ script, ofChanges changes = .ok script →
      script.toChanges = changes ∧
      ∀ starts calls moved, (relocations starts).run script = (calls, moved) →
        calls.map Prod.fst = starts ∧ MovedBy script calls moved ∧
        ∀ start answer next, (relocate start).run.run moved = (answer, next) →
          (∀ refusal, answer = .error refusal → next = moved) ∧
          (answer = .ok () ↔ script.body.span.isEmpty = true ∧
            ¬ (script.callSite.start < start.toNat ∧ start.toNat < script.callSite.stop)) := by
  refine ⟨fun refusal => ofChanges_eq_error_iff, fun script hscript => ?_⟩
  obtain ⟨hfits, hchanges⟩ := ofChanges_eq_ok_iff.mp hscript
  have hfit : script.callSite.stop ≤ maxOffset :=
    hfits script.callSite (by rw [hchanges]; simp [toChanges])
  refine ⟨hchanges.symm, fun starts calls moved hrun => ?_⟩
  obtain ⟨hplaces, hmoved⟩ := movedBy_of_run hfit hrun
  refine ⟨hplaces, hmoved,
    fun start answer next hcall => ⟨?_, hmoved.relocate_eq_ok_iff hfit hcall⟩⟩
  rintro refusal rfl
  rcases relocate_cases hcall with ⟨hanswer, -⟩ | ⟨-, -, hnext, -⟩
  · exact absurd hanswer (by simp)
  · exact hnext

/-- A script with its function behind the call. -/
def logCall : Script :=
  ⟨[⟨⟨0, 0⟩, "import \"./log\";\n"⟩], ⟨⟨10, 3⟩, "newFunction()"⟩,
    ⟨⟨40, 0⟩, "\nfunction newFunction() \x7b\x7d\n"⟩⟩

/-- The script with its function in front of the call. -/
def logCallMoved : Script := { logCall with body := ⟨⟨2, 0⟩, logCall.body.newText⟩ }

/-- Calls to the end of the call site, into it, in front of it and into it again. -/
def logCallCalls : Calls :=
  [(13, .ok ()), (11, .error (.overlappingChanges 11 ⟨10, 3⟩)), (2, .ok ()),
    (12, .error (.overlappingChanges 12 ⟨10, 3⟩))]

theorem relocations_atomic_logCall :
    ofChanges logCall.toChanges = .ok logCall ∧
      (relocations [13, 11, 2, 12]).run logCall = (logCallCalls, logCallMoved) ∧
      MovedBy logCall logCallCalls logCallMoved ∧
      (relocate 11).run.run logCallMoved =
        (.error (.overlappingChanges 11 ⟨10, 3⟩), logCallMoved) ∧
      ¬ (logCall.body.span.isEmpty = true ∧
        ¬ (logCall.callSite.start < 11 ∧ 11 < logCall.callSite.stop)) := by
  have hscript : ofChanges logCall.toChanges = .ok logCall := rfl
  have hrun : (relocations [13, 11, 2, 12]).run logCall = (logCallCalls, logCallMoved) := rfl
  have hcall : (relocate 11).run.run logCallMoved =
      (.error (.overlappingChanges 11 ⟨10, 3⟩), logCallMoved) := rfl
  obtain ⟨-, hmoved, hnext⟩ :=
    ((relocations_atomic logCall.toChanges).2 logCall hscript).2 _ _ _ hrun
  exact ⟨hscript, hrun, hmoved, hcall, (not_congr (hnext 11 _ _ hcall).2).mp (by simp)⟩

end Assist.Extraction.Script
