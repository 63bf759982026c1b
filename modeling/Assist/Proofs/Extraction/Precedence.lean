import Assist.Proofs.Extraction.InsertionPoint

/-!
# A function before its call

An arrow function is a constant, so it has to stand above the call that uses it. In a file of ASCII
the place above a statement is never behind the first token of the statement
(`aboveStatement_le_start`), and a statement that was found by an offset starts no later than that
offset. So whenever the file covers the start of the selection, the function goes no further than
there. It stays where the host had it if the file does not, as in the blanks and comments in front
of the first statement; `function_before_call_iff` says that then, and only then, it may come to
stand behind the call. In `function_behind_call` the selection starts with the blank line above a
statement.
-/

namespace Assist.Extraction

open Assist.Text Assist.Syntax Assist.Offsets

/-- A text whose characters are all of ASCII. -/
def IsAscii (text : String) : Prop := ∀ c ∈ text.toList, c.toNat < 128

instance (text : String) : Decidable (IsAscii text) :=
  decidable_of_iff (text.toList.all fun c => c.toNat < 128) (by simp [IsAscii])

/-! ## The first token of a node -/

/-- In ASCII the blanks at the start of a text are trivia. -/
theorem dropTrivia_append_of_blank {ws rest : List Char} (hascii : ∀ c ∈ ws, c.toNat < 128)
    (hblank : ∀ c ∈ ws, isBlank c = true) :
    dropTrivia (utf8 (ws ++ rest)) = dropTrivia (utf8 rest) := by
  induction ws with
  | nil => rfl
  | cons c ws ih =>
    obtain ⟨hc, hws⟩ := List.forall_mem_cons.mp hascii
    obtain ⟨hcblank, hwsblank⟩ := List.forall_mem_cons.mp hblank
    obtain ⟨b, hencode, -, hb⟩ := utf8EncodeChar_of_ascii hc
    -- the blanks of ASCII are the bytes 9 to 13 and 32
    have hbyte : 9 ≤ b.toNat ∧ b.toNat ≤ 13 ∨ b.toNat = 32 := by
      simp only [isBlank, Bool.or_eq_true, Bool.and_eq_true, decide_eq_true_eq, beq_iff_eq]
        at hcblank
      omega
    have hslash : b ≠ 0x2F := by
      rintro rfl
      exact absurd hbyte (by decide)
    have htrivia : isTriviaBlank b = true := by
      simp only [isTriviaBlank, Bool.or_eq_true, beq_iff_eq, ← UInt8.toNat_inj]
      show ((((b.toNat = 32 ∨ b.toNat = 9) ∨ b.toNat = 13) ∨ b.toNat = 10) ∨ b.toNat = 11) ∨
        b.toNat = 12
      omega
    rw [List.cons_append, utf8_cons, hencode, List.singleton_append, dropTrivia,
      dropTriviaFrom_between, if_neg (fun h => hslash h.1), if_neg (fun h => hslash h.1),
      if_pos htrivia]
    exact ih hws hwsblank

/-- A part that is cut out of a text stands between the two offsets. -/
theorem exists_of_slice? {start stop : Nat} {cs middle : List Char}
    (h : slice? start stop cs = some middle) :
    ∃ before after, cs = before ++ middle ++ after ∧ byteLen before = start ∧
      byteLen before + byteLen middle = stop := by
  simp only [slice?, Option.bind_eq_bind, Option.pure_def, Option.bind_eq_some_iff] at h
  obtain ⟨_, hguard, ⟨before, tail⟩, hfirst, ⟨part, after⟩, hsecond, hpart⟩ := h
  have hle : start ≤ stop := (Option.guard_eq_some' _).mp hguard
  obtain rfl : part = middle := Option.some.inj hpart
  obtain ⟨hcs, hbefore⟩ := eq_append_of_cut? hfirst
  have htail : tail = part ++ after := (eq_append_of_cut? hsecond).1
  have hlen : byteLen part = stop - start := (eq_append_of_cut? hsecond).2
  refine ⟨before, after, ?_, hbefore, by omega⟩
  rw [hcs, htail, List.append_assoc]

variable {tree : Tree}

/-- A text of the file between two offsets is a part of the file, and its bytes are those that are
searched for trivia between these offsets. -/
theorem exists_of_textBetween {pos stop : Offset} {text : String}
    (h : tree.textBetween pos stop = .ok text) :
    text.toList <:+: tree.source.toList ∧
      window pos.toNat stop.toNat (utf8 tree.source.toList) = utf8 text.toList := by
  simp only [Tree.textBetween] at h
  split at h
  · rename_i middle hslice
    cases h
    obtain ⟨before, after, htext, hbefore, hstop⟩ := exists_of_slice? hslice
    rw [String.toList_ofList]
    refine ⟨⟨before, after, htext.symm⟩, ?_⟩
    have hlen : (utf8 tree.source.toList).length = tree.length := length_utf8 _
    rw [← window_clamp, hlen, ← hstop, ← hbefore, htext, window_append]
  · cases h

/-- In a file of ASCII the first token of a node comes behind the blanks of the node. -/
theorem blanks_le_start (hascii : IsAscii tree.source) {n : NodeId}
    {text : String} (htext : tree.textWithTrivia n = .ok text) :
    (tree.pos n).toNat + byteLen (Text.leadingBlank text.toList) ≤ (tree.start n).toNat := by
  obtain ⟨hpart, hwindow⟩ := exists_of_textBetween htext
  have hsplit := leadingBlank_append_trimStart text.toList
  have hblanks : ∀ c ∈ Text.leadingBlank text.toList, c.toNat < 128 := by
    intro c hc
    refine hascii c (hpart.subset ?_)
    rw [← hsplit]
    exact List.mem_append_left _ hc
  -- the scan takes the blanks and perhaps comments behind them
  have hscan : (dropTrivia (utf8 text.toList)).length ≤ byteLen (trimStart text.toList) := by
    rw [← hsplit, dropTrivia_append_of_blank hblanks (List.all_eq_true.mp List.all_takeWhile),
      hsplit, ← length_utf8]
    exact length_dropTriviaFrom_le .between _
  have hlen : byteLen text.toList =
      byteLen (Text.leadingBlank text.toList) + byteLen (trimStart text.toList) := by
    rw [← byteLen_append, hsplit]
  rw [Tree.start, toNat_afterTrivia, hwindow, length_utf8]
  omega

/-- In a file of ASCII the place above a statement is not behind its first token. -/
theorem aboveStatement_le_start (hascii : IsAscii tree.source)
    {statement : NodeId} {place : Offset} (h : aboveStatement tree statement = .ok place) :
    place.toNat ≤ (tree.start statement).toNat := by
  cases htext : tree.textWithTrivia statement with
  | error fault =>
    rw [aboveStatement, htext] at h
    cases h
  | ok text =>
    have hblanks := blanks_le_start hascii htext
    have hpos := UInt32.le_iff_toNat_le.mp (pos_le_start tree statement)
    rw [toNat_of_aboveStatement htext h]
    omega

/-! ## The statement of the selection -/

variable {σ : Type} {host : Host (StateM σ)} {request : Request} {s s' : σ} {info : EditInfo}
  {script moved : Script}

/-- A function goes no further than the start of the selection if the file covers it, and stays
where it is if not. -/
theorem moveFunction_le_iff (hascii : IsAscii tree.source)
    (h : Yields (moveFunction host tree request .arrow script) s moved s') {bound : Nat}
    (hbound : request.selection.start.toNat ≤ bound) :
    moved.body.start ≤ bound ↔
      tree.root.any (tree.covers .exclusive request.selection.start) = true ∨
        script.body.start ≤ bound := by
  rw [yields_moveFunction, if_neg (by decide)] at h
  obtain ⟨-, h⟩ := h
  rw [← locate?_isSome tree .exclusive 2]
  split at h
  · rename_i statement hfound
    obtain ⟨place, hplace, hmove⟩ := h
    obtain ⟨-, -, -, rfl⟩ := Script.moveBody_eq_ok_iff.mp hmove
    have hcovers := covers_of_locate? hfound
    rw [Tree.covers, Bool.and_eq_true, decide_eq_true_eq, UInt32.le_iff_toNat_le] at hcovers
    have hle : place.toNat ≤ bound :=
      Nat.le_trans (aboveStatement_le_start hascii hplace) (Nat.le_trans hcovers.1 hbound)
    have hsome : (tree.locate? .exclusive 2 request.selection.start).isSome = true :=
      Option.isSome_iff_exists.mpr ⟨statement, hfound⟩
    exact iff_of_true hle (Or.inl hsome)
  · rename_i hnone
    have hisNone : (tree.locate? .exclusive 2 request.selection.start).isSome = false :=
      Option.isSome_eq_false_iff.mpr (Option.isNone_iff_eq_none.mpr hnone)
    rw [h, hisNone]
    simp

/-- **A function before its call.** In a file of ASCII, and with a call that is not in front of the
selection, the function of an arrow function starts no later than the call exactly if the file
covers the start of the selection or the host's function was not behind the call. -/
theorem function_before_call_iff (hascii : IsAscii tree.source)
    {origin : String}
    (haction : Variant.ofActionName? request.actionName = some (origin, .arrow))
    (h : Yields (requestedEdit host tree request) s (some info) s') :
    ∃ answer file script, HostEdit host.edits request s .arrow answer file script ∧
      (request.selection.start.toNat ≤ script.callSite.start →
        ∃ function, info.edits = [⟨file.fileName, script.leading ++ [function, script.callSite]⟩] ∧
          (function.start ≤ script.callSite.start ↔
            tree.root.any (tree.covers .exclusive request.selection.start) = true ∨
              script.body.start ≤ script.callSite.start)) := by
  obtain ⟨answer, file, script, arrow, moved, s₁, s₂, hhost, -, -, hmove, hedits⟩ :=
    exists_moved_of_requestedEdit haction (by decide) h
  exact ⟨answer, file, script, hhost, fun hselected =>
    ⟨moved.body, hedits, moveFunction_le_iff hascii hmove hselected⟩⟩

theorem function_before_call_sum :
    ∃ answer file script,
      HostEdit (sumHost [sumImport] "newFunction()" sumFunction).edits (sumRequest .arrow) () .arrow
        answer file script ∧
      ∃ function, (sumEdit .arrow sumArrow 77).edits =
          [⟨file.fileName, script.leading ++ [function, script.callSite]⟩] ∧
        function.start ≤ script.callSite.start := by
  have hascii : IsAscii sumTree.source := by decide +kernel
  have haction : Variant.ofActionName? (sumRequest .arrow).actionName =
      some ("function_scope_0", .arrow) := by decide +kernel
  have h : Yields (requestedEdit (sumHost [sumImport] "newFunction()" sumFunction) sumTree
      (sumRequest .arrow)) () (some (sumEdit .arrow sumArrow 77)) () := by decide +kernel
  obtain ⟨answer, file, script, hhost, hbefore⟩ := function_before_call_iff hascii haction h
  obtain ⟨-, -, -, rfl⟩ :=
    (hostEdit_sum .arrow [sumImport] "newFunction()" sumFunction).unique hhost
  obtain ⟨function, hedits, hiff⟩ := hbefore (by decide)
  exact ⟨answer, file, _, hhost, function, hedits, hiff.mpr (Or.inl (by decide +kernel))⟩

/-! ## A selection that starts with a line break -/

/-- A file of a statement after a blank line. -/
def logTree : Tree :=
  ((Tree.empty "\nlog(1 + 2);\n").addLeaf .expressionStatement 0 12).addFile [⟨0⟩]

/-- The changes that extract the statement of `logTree` into a function behind it. -/
def logScript : Script :=
  ⟨[], ⟨⟨1, 11⟩, "newFunction();"⟩,
    ⟨⟨13, 0⟩, "\nfunction newFunction() \x7b\n    log(1 + 2);\n\x7d\n"⟩⟩

/-- A host that has these changes. -/
def logHost : Host (StateM Unit) :=
  Host.ofTable [("function_scope_0", ⟨[⟨"sum.ts", logScript.toChanges⟩], none, none⟩)]

/-- A request for the statement of `logTree`, with the line break before it, as an arrow
function. -/
def logRequest : Request := { sumRequest .arrow with selection := .range ⟨0, 12⟩ }

/-- The changes that turn the function into an arrow function where it is. -/
def logArrow : Script :=
  { logScript with
    body := ⟨⟨13, 0⟩, "\nconst newFunction = () => \x7b\n    log(1 + 2);\n\x7d\n"⟩ }

theorem function_behind_call :
    IsAscii logTree.source ∧
      Tree.BuiltOver logTree.source logTree ∧
      Variant.ofActionName? logRequest.actionName = some ("function_scope_0", .arrow) ∧
      Yields (requestedEdit logHost logTree logRequest) () (some (sumEdit .arrow logArrow 48)) () ∧
      logRequest.selection.start.toNat ≤ logArrow.callSite.start ∧
      ¬ logArrow.body.start ≤ logArrow.callSite.start ∧
      applyChanges? logTree.source (logArrow.arranged .arrow) =
        some "\nnewFunction();\n\nconst newFunction = () => \x7b\n    log(1 + 2);\n\x7d\n" := by
  have hbuilt : Tree.BuiltOver logTree.source logTree :=
    .addFile (.add .empty (by simp) (by decide +kernel) (by decide +kernel)) (by decide)
  refine ⟨by decide +kernel, hbuilt, ?_⟩
  simp only [applyChanges?, sortChanges_eq_foldr]
  decide +kernel

end Assist.Extraction
