import Assist.Extraction.Component
import Assist.Proofs.Signature.ClosingBracket
import Assist.Proofs.Signature.Names
import Assist.Proofs.Signature.Reading
import Assist.Proofs.Signature.Splitting
import Assist.Proofs.Text.Search

/-!
# Which texts are calls

The text at the place of a call counts as a call if the bracket that its first parenthesis opens is
closed by its last character (`argumentsOf?_eq_some_iff`). What stands before the parenthesis is not
looked at, and neither is the kind of the last character. So every call in the usual layouts is read
with its arguments (`argumentsOf?_of_mem_callForms`), but a text that is read is a single call only
under a condition on both, which is exact (`singleCall_iff`). A call behind a keyword is read like
the call alone (`keyword_before_call`).
-/

namespace Assist.Extraction

open Assist.Text Assist.Signature

/-! ## Single calls -/

/-- A list of type arguments between angle brackets. -/
def IsTypeArguments (cs : List Char) : Prop :=
  ∃ inner, cs = '<' :: (inner ++ ['>']) ∧ Closed inner ∧ Closed cs

/-- Names and dots, and a list of type arguments or none. -/
def IsCallee (cs : List Char) : Prop :=
  ∃ path typeArguments, cs = path ++ typeArguments ∧ path ≠ [] ∧
    (∀ c ∈ path, isNameChar c = true ∨ c = '.') ∧
    (typeArguments = [] ∨ IsTypeArguments typeArguments)

/-- One group in parentheses. -/
def IsGroup (cs : List Char) : Prop := ∃ inner, cs = '(' :: (inner ++ [')']) ∧ Closed inner

/-- A callee and one group in parentheses, and nothing else. -/
def SingleCall (cs : List Char) : Prop :=
  ∃ callee group, cs = callee ++ group ∧ IsCallee callee ∧ IsGroup group

theorem closed_of_path {path : List Char} (h : ∀ c ∈ path, isNameChar c = true ∨ c = '.') :
    Closed path := by
  refine Closed.of_isInert fun c hc => ?_
  rcases h c hc with hname | rfl
  · exact isInert_of_isNameChar hname
  · decide

theorem not_mem_of_path {path : List Char} (h : ∀ c ∈ path, isNameChar c = true ∨ c = '.') :
    '(' ∉ path := by
  intro hmem
  rcases h _ hmem with hname | hdot
  · exact absurd hname (by decide)
  · exact absurd hdot (by decide)

theorem IsCallee.closed {callee : List Char} (h : IsCallee callee) : Closed callee := by
  obtain ⟨path, typeArguments, rfl, -, hpath, htypes⟩ := h
  refine (closed_of_path hpath).append ?_
  rcases htypes with rfl | ⟨-, -, -, hclosed⟩
  · exact Closed.nil
  · exact hclosed

/-! ## What is around a call -/

/-- A text without a semicolon at its end. -/
def withoutSemicolon (call : List Char) : List Char :=
  trimEnd ((stripEnd? [';'] call).getD call)

/-- What stands between braces. -/
def insideBraces? (call : List Char) : Option (List Char) :=
  (stripStart? ['{'] call).bind (stripEnd? ['}'])

theorem bareCall_eq (text : List Char) : bareCall text =
    ((insideBraces? (withoutSemicolon (trim text))).map trim).getD
      (withoutSemicolon (trim text)) := by
  unfold bareCall insideBraces? withoutSemicolon
  dsimp only
  split
  · rename_i inner hinner
    rw [hinner, Option.map_some, Option.getD_some]
  · rename_i hnone
    rw [hnone, Option.map_none, Option.getD_none]

/-- What is left of a text does not end with a blank. -/
theorem getLast?_bareCall {text : List Char} {c : Char} (h : c ∈ (bareCall text).getLast?) :
    isBlank c = false := by
  rw [bareCall_eq] at h
  cases hbraces : insideBraces? (withoutSemicolon (trim text)) with
  | none =>
    rw [hbraces] at h
    exact trimEnd_eq_self_iff.mp (List.rdropWhile_idempotent isBlank _) c h
  | some inner =>
    rw [hbraces] at h
    exact (trim_eq_self_iff.mp (trim_trim inner)).2 c h

theorem withoutSemicolon_concat {c : Char} (hc : isBlank c = false) (hne : c ≠ ';')
    (cs : List Char) : withoutSemicolon (cs ++ [c]) = cs ++ [c] := by
  have hnone : stripEnd? [';'] (cs ++ [c]) = none := by
    refine Option.eq_none_iff_forall_ne_some.mpr fun before hbefore => hne ?_
    exact (List.append_inj' (stripEnd?_eq_some_iff.mp hbefore) rfl).2 |> List.singleton_inj.mp
  rw [withoutSemicolon, hnone, Option.getD_none, trimEnd_concat hc]

theorem withoutSemicolon_semicolon {c : Char} (hc : isBlank c = false) (cs : List Char) :
    withoutSemicolon (cs ++ [c] ++ [';']) = cs ++ [c] := by
  rw [withoutSemicolon, stripEnd?_eq_some_iff.mpr rfl, Option.getD_some, trimEnd_concat hc]

theorem insideBraces?_braces (cs : List Char) : insideBraces? ('{' :: (cs ++ ['}'])) = some cs := by
  have hstart : stripStart? ['{'] ('{' :: (cs ++ ['}'])) = some (cs ++ ['}']) :=
    stripStart?_eq_some_iff.mpr rfl
  rw [insideBraces?, hstart, Option.bind_some, stripEnd?_eq_some_iff.mpr rfl]

theorem insideBraces?_concat {c : Char} (hne : c ≠ '}') (cs : List Char) :
    insideBraces? (cs ++ [c]) = none := by
  refine Option.eq_none_iff_forall_ne_some.mpr fun inner hinner => hne ?_
  obtain ⟨rest, hrest, hend⟩ := Option.bind_eq_some_iff.mp hinner
  have hbraces : cs ++ [c] = '{' :: inner ++ ['}'] := by
    rw [stripStart?_eq_some_iff.mp hrest, stripEnd?_eq_some_iff.mp hend]
    rfl
  exact List.singleton_inj.mp (List.append_inj' hbraces rfl).2

/-- Of a text that ends with a parenthesis no braces are taken off. -/
theorem bareCall_of_parenthesis {text cs : List Char}
    (h : withoutSemicolon (trim text) = cs ++ [')']) : bareCall text = cs ++ [')'] := by
  rw [bareCall_eq, h, insideBraces?_concat (by decide), Option.map_none, Option.getD_none]

theorem bareCall_of_braces {text cs : List Char}
    (h : withoutSemicolon (trim text) = '{' :: (cs ++ ['}'])) : bareCall text = trim cs := by
  rw [bareCall_eq, h, insideBraces?_braces, Option.map_some, Option.getD_some]

/-- The layouts of a call: with a semicolon or without, in braces or not. -/
def callForms (call : List Char) : List (List Char) :=
  [call, call ++ [';'], '{' :: (call ++ ['}']), '{' :: (call ++ ['}', ';'])]

/-- In every layout what is left is the call without the blanks at its start. -/
theorem bareCall_of_mem_callForms {callee inner form : List Char}
    (h : form ∈ callForms (callee ++ '(' :: (inner ++ [')']))) :
    bareCall form = trimStart callee ++ '(' :: (inner ++ [')']) := by
  have hcall : trim (callee ++ '(' :: (inner ++ [')'])) =
      trimStart callee ++ '(' :: (inner ++ [')']) :=
    trim_append_concat callee (by decide) (by decide) inner
  have hconcat : trimStart callee ++ '(' :: (inner ++ [')']) =
      (trimStart callee ++ '(' :: inner) ++ [')'] := by simp
  have hbrace : ∀ {c : Char}, isBlank c = false → ∀ cs,
      trim ('{' :: (cs ++ [c])) = '{' :: (cs ++ [c]) :=
    fun hc cs => trim_append_concat [] (by decide) hc cs
  simp only [callForms, List.mem_cons, List.not_mem_nil, or_false] at h
  rcases h with rfl | rfl | rfl | rfl
  · rw [hconcat]
    refine bareCall_of_parenthesis ?_
    rw [hcall, hconcat]
    exact withoutSemicolon_concat (by decide) (by decide) _
  · have hsemicolon : callee ++ '(' :: (inner ++ [')']) ++ [';'] =
        callee ++ '(' :: ((inner ++ [')']) ++ [';']) := by simp
    rw [hconcat]
    refine bareCall_of_parenthesis ?_
    rw [hsemicolon, trim_append_concat callee (by decide) (by decide), ← List.cons_append,
      ← List.append_assoc, hconcat]
    exact withoutSemicolon_semicolon (by decide) _
  · rw [← hcall]
    refine bareCall_of_braces ?_
    rw [hbrace (by decide), ← List.cons_append]
    exact withoutSemicolon_concat (by decide) (by decide) _
  · have hsemicolon : callee ++ '(' :: (inner ++ [')']) ++ ['}', ';'] =
        (callee ++ '(' :: (inner ++ [')']) ++ ['}']) ++ [';'] := by simp
    rw [← hcall]
    refine bareCall_of_braces ?_
    rw [hsemicolon, hbrace (by decide), ← List.cons_append, ← List.cons_append]
    exact withoutSemicolon_semicolon (by decide) _

/-! ## The texts that are read -/

/-- **The texts that are read.** The first parenthesis opens a bracket that the search finds closed
at the last character, and the arguments are the pieces in between. -/
theorem argumentsOf?_eq_some_iff {text : String} {arguments : List String} :
    argumentsOf? text = some arguments ↔ ∃ before inner last,
      bareCall text.toList = before ++ '(' :: (inner ++ [last]) ∧ '(' ∉ before ∧
      closeOf? ('(' :: (inner ++ [last])) = some (inner.length + 1) ∧
      arguments = (topLevelPieces ',' inner).map String.ofList := by
  unfold argumentsOf?
  simp only [Option.bind_eq_bind, Option.bind_eq_some_iff, Option.pure_def, Option.some.injEq,
    Prod.exists]
  constructor
  · rintro ⟨before, tail, hsplit, close, hclose, _, hguard, rfl⟩
    obtain ⟨htext, ⟨rest, htail⟩, hbefore⟩ :=
      (splitAtFirst?_eq_some_iff List.not_mem_nil).mp hsplit
    obtain rfl : '(' :: rest = tail := htail
    -- nothing but blanks may follow, and the text does not end with one
    have hnil : rest.drop close = [] := by
      by_contra hne
      have hblank : allBlank (rest.drop close) = true := by
        by_contra hfalse
        simp [guard, hfalse] at hguard
      obtain ⟨last, hlast⟩ := Option.isSome_iff_exists.mp (List.getLast?_isSome.mpr hne)
      have htextLast : last ∈ (bareCall text.toList).getLast? := by
        obtain ⟨front, hfront⟩ : rest.drop close <:+ bareCall text.toList := by
          rw [htext]
          exact ((List.drop_suffix close rest).trans (List.suffix_cons '(' rest)).trans
            (List.suffix_append before _)
        rw [← hfront, List.getLast?_append, hlast]
        rfl
      have hmem := List.all_eq_true.mp hblank last (List.mem_of_getLast? hlast)
      rw [getLast?_bareCall htextLast] at hmem
      cases hmem
    obtain ⟨-, -, -, hpos, -⟩ := exists_mark_of_closeOf? hclose
    have hlt := lt_length_of_closeOf? hclose
    have hle := List.drop_eq_nil_iff.mp hnil
    rw [List.length_cons] at hlt
    rcases List.eq_nil_or_concat' rest with rfl | ⟨inner, last, rfl⟩
    · rw [List.length_nil] at hlt
      omega
    · rw [List.length_append, List.length_singleton] at hlt hle
      obtain rfl : close = inner.length + 1 := by omega
      refine ⟨before, inner, last, htext, fun hmem => hbefore ?_, hclose, by simp⟩
      exact (List.singleton_infix_iff _ _).mpr hmem
  · rintro ⟨before, inner, last, htext, hbefore, hclose, rfl⟩
    refine ⟨before, _, htext ▸ splitAtFirst?_char hbefore _, _, hclose, (), ?_, ?_⟩
    · simp [guard, allBlank]
    · simp

/-! ## Which of them are single calls -/

section Reads

variable {before inner : List Char} {last : Char}

/-- The last character is one at which one bracket is open. -/
theorem depth_of_closeOf? (h : closeOf? ('(' :: (inner ++ [last])) = some (inner.length + 1)) :
    (Scan.initial.run ('(' :: inner)).depth = 1 := by
  obtain ⟨m, hm, hindex, -, hdepth⟩ := exists_mark_of_closeOf? h
  rw [marks, ← List.cons_append, marksFrom_append] at hm
  rcases List.mem_append.mp hm with hm | hm
  · have hlt := (index_lt_of_mem_marksFrom hm).2
    rw [List.length_cons] at hlt
    omega
  · rw [marksFrom] at hm
    split at hm
    · obtain rfl := List.mem_singleton.mp hm
      exact hdepth
    · exact absurd hm (by simp [marksFrom])

/-- Behind the part of a callee before a parenthesis, at least one bracket is open. -/
theorem one_le_depth_of_isCallee {after : List Char} (h : IsCallee (before ++ '(' :: after))
    (hbefore : '(' ∉ before) : 1 ≤ (Scan.initial.run before).depth := by
  obtain ⟨path, typeArguments, heq, -, hpath, htypes⟩ := h
  have hpathClosed := closed_of_path hpath
  obtain ⟨gap, rfl, hgap⟩ := exists_append_of_not_mem (not_mem_of_path hpath) heq.symm
  -- the parenthesis stands behind the bracket that opens the type arguments
  rcases htypes with rfl | ⟨arguments, rfl, harguments, -⟩
  · exact absurd hgap (by simp)
  cases gap with
  | nil => exact absurd (List.cons.inj hgap).1 (by decide)
  | cons c gap =>
    obtain rfl : '<' = c := (List.cons.inj hgap).1
    have htail : arguments ++ ['>'] = gap ++ '(' :: after := (List.cons.inj hgap).2
    have hlength : gap.length ≤ arguments.length := by
      have := congrArg List.length htail
      simp only [List.length_append, List.length_cons, List.length_nil] at this
      omega
    have hfront : gap <+: arguments :=
      List.prefix_of_prefix_length_le ⟨_, htail.symm⟩ (List.prefix_append _ _) hlength
    have hstep := step_of_opens hpathClosed.code (by decide : opens '<' = true)
    obtain ⟨-, -, hstays⟩ := harguments.run (t := (Scan.initial.run path).step '<') (by rw [hstep])
    have habove := hstays.le_run hfront
    rw [Scan.run_append, Scan.run_cons]
    rw [hstep, hpathClosed.depth] at habove ⊢
    exact habove

/-- In a text that is read, the first parenthesis does not stand among the type arguments. -/
theorem not_mem_callee {callee group : List Char} (hcallee : IsCallee callee)
    (hgroup : Closed group) (hbefore : '(' ∉ before)
    (hcode : (Scan.initial.run before).region = .code)
    (heq : before ++ '(' :: (inner ++ [last]) = callee ++ '(' :: (group ++ [')']))
    (hclose : closeOf? ('(' :: (inner ++ [last])) = some (inner.length + 1)) : '(' ∉ callee := by
  intro hmem
  have hclosed := hcallee.closed
  obtain ⟨front, after, rfl, hfront⟩ := List.eq_append_cons_of_mem hmem
  -- both texts are split at their first parenthesis
  have hsplit := splitAtFirst?_char hbefore (inner ++ [last])
  rw [heq, List.append_assoc, List.cons_append, splitAtFirst?_char hfront, Option.some.injEq,
    Prod.mk.injEq] at hsplit
  obtain ⟨rfl, htail⟩ := hsplit
  have hinner : inner = after ++ '(' :: group := by
    have htail' : (after ++ '(' :: group) ++ [')'] = inner ++ [last] := by
      simpa using (List.cons.inj htail).2
    exact (List.append_inj' htail' rfl).1.symm
  -- the scan of the whole text and the search are apart by what is open at the parenthesis
  have hdepth := one_le_depth_of_isCallee hcallee hbefore
  have halike : Scan.Alike (Scan.initial.run front).depth (Scan.initial.step '(')
      ((Scan.initial.run front).step '(') :=
    .of_step rfl hcode (by simp [Scan.initial]) (by decide)
  have hsearch := depth_of_closeOf? hclose
  have hwhole : (Scan.initial.run (front ++ '(' :: inner)).depth = 1 := by
    have hstep := step_of_opens hclosed.code (by decide : opens '(' = true)
    rw [hinner, ← List.cons_append, ← List.append_assoc, Scan.run_append, Scan.run_cons, hstep,
      hclosed.depth]
    exact (hgroup.run (t := ⟨.code, 1, '('⟩) rfl).2.1
  have hrun := (halike.run inner).depth
  rw [Scan.run_append, Scan.run_cons] at hwhole
  rw [Scan.run_cons] at hsearch
  omega

/-- **Single calls.** Of the texts that are read, a single call is one with a callee before the
parenthesis and a parenthesis at the end, unless a string literal hides where the bracket closes.
In a single call the first parenthesis may also stand in a string literal among the type
arguments. -/
theorem singleCall_iff (hbefore : '(' ∉ before)
    (hclose : closeOf? ('(' :: (inner ++ [last])) = some (inner.length + 1)) :
    SingleCall (before ++ '(' :: (inner ++ [last])) ∧
        (Scan.initial.run before).region = .code ↔
      IsCallee before ∧ last = ')' ∧ ¬HidesClose '(' (inner ++ [last]) := by
  have hopens : opens '(' = true := by decide
  constructor
  · rintro ⟨⟨callee, -, heq, hcallee, group, rfl, hgroup⟩, hcode⟩
    have hparen := not_mem_callee hcallee hgroup hbefore hcode heq hclose
    -- both texts are split at their first parenthesis
    have hsplit := splitAtFirst?_char hbefore (inner ++ [last])
    rw [heq, splitAtFirst?_char hparen, Option.some.injEq, Prod.mk.injEq] at hsplit
    obtain ⟨rfl, htail⟩ := hsplit
    obtain ⟨rfl, hlast⟩ := List.append_inj' (List.cons.inj htail).2 rfl
    obtain rfl := List.singleton_inj.mp hlast
    refine ⟨hcallee, rfl, fun hhides => ?_⟩
    have hreturn : FirstReturn '(' group ')' := .of_closed hopens hgroup fun _ => rfl
    exact absurd (hreturn.hidesClose_iff.mp hhides).1 (by decide)
  · rintro ⟨hcallee, rfl, hhides⟩
    have hreturn := firstReturn_of_closeOf? hopens hhides hclose
    exact ⟨⟨before, _, rfl, hcallee, inner, rfl, hreturn.closed hopens⟩, hcallee.closed.code⟩

end Reads

/-! ## The layouts of a call -/

/-- A trimmed text that is not empty, closes its brackets and has no comma at its top level. -/
structure IsArgument (argument : String) : Prop where
  piece : IsPiece argument.toList
  trimmed : trim argument.toList = argument.toList
  ne_nil : argument.toList ≠ []

instance (argument : String) : Decidable (IsArgument argument) :=
  decidable_of_iff (IsPiece argument.toList ∧ trim argument.toList = argument.toList ∧
      argument.toList ≠ [])
    ⟨fun ⟨hpiece, htrimmed, hne⟩ => ⟨hpiece, htrimmed, hne⟩,
      fun h => ⟨h.piece, h.trimmed, h.ne_nil⟩⟩

/-- The text of a call. -/
def callText (callee : String) (arguments : List String) : List Char :=
  callee.toList ++ '(' :: ([',', ' '].intercalate (arguments.map String.toList) ++ [')'])

/-- **Calls are read.** In every layout a call has exactly its arguments. -/
theorem argumentsOf?_of_mem_callForms {callee : String} {arguments : List String}
    (hcallee : '(' ∉ callee.toList) (harguments : ∀ a ∈ arguments, IsArgument a) {text : String}
    (h : text.toList ∈ callForms (callText callee arguments)) :
    argumentsOf? text = some arguments := by
  have htexts : ∀ text ∈ arguments.map String.toList, IsPiece text ∧ trim text = text ∧
      text ≠ [] := by
    intro text htext
    obtain ⟨a, ha, rfl⟩ := List.mem_map.mp htext
    exact ⟨(harguments a ha).piece, (harguments a ha).trimmed, (harguments a ha).ne_nil⟩
  have hclosed : Closed ([',', ' '].intercalate (arguments.map String.toList)) :=
    Closed.intercalate fun text htext => (htexts text htext).1.closed
  have hpieces : topLevelPieces ',' ([',', ' '].intercalate (arguments.map String.toList)) =
      arguments.map String.toList := by
    rw [topLevelPieces_intercalate fun text htext => ?_]
    · exact (List.map_congr_left fun text htext => (htexts text htext).2.1).trans (List.map_id _)
    · rw [(htexts text htext).2.1]
      exact ⟨(htexts text htext).1, (htexts text htext).2.2⟩
  have hbefore : '(' ∉ trimStart callee.toList :=
    fun hmem => hcallee ((List.dropWhile_sublist isBlank).mem hmem)
  refine argumentsOf?_eq_some_iff.mpr ⟨trimStart callee.toList, _, ')', ?_, hbefore,
    closeOf?_group (by decide) hclosed rfl [], ?_⟩
  · exact bareCall_of_mem_callForms h
  · rw [hpieces, List.map_map]
    exact (List.map_id _).symm.trans (List.map_congr_left fun a _ => String.ofList_toList.symm)

/-- **Reading calls.** A text is read exactly if the bracket of its first parenthesis is found
closed at its end; a text that is read is a single call exactly if it has a callee, ends with a
parenthesis and hides no close; and a call in any layout is read with its arguments. -/
theorem argumentsOf?_calls (text : String) :
    (∀ arguments, argumentsOf? text = some arguments ↔ ∃ before inner last,
      bareCall text.toList = before ++ '(' :: (inner ++ [last]) ∧ '(' ∉ before ∧
      closeOf? ('(' :: (inner ++ [last])) = some (inner.length + 1) ∧
      arguments = (topLevelPieces ',' inner).map String.ofList) ∧
    (∀ before inner last, bareCall text.toList = before ++ '(' :: (inner ++ [last]) →
      '(' ∉ before → closeOf? ('(' :: (inner ++ [last])) = some (inner.length + 1) →
      (SingleCall (bareCall text.toList) ∧ (Scan.initial.run before).region = .code ↔
        IsCallee before ∧ last = ')' ∧ ¬HidesClose '(' (inner ++ [last]))) ∧
    ∀ callee arguments, IsName callee → (∀ a ∈ arguments, IsArgument a) →
      text.toList ∈ callForms (callText callee arguments) →
      argumentsOf? text = some arguments := by
  refine ⟨fun _ => argumentsOf?_eq_some_iff, ?_, ?_⟩
  · intro before inner last hcall hbefore hclose
    rw [hcall]
    exact singleCall_iff hbefore hclose
  · intro callee arguments hcallee harguments hform
    exact argumentsOf?_of_mem_callForms (hcallee.not_mem (by decide)) harguments hform

/-- A call with type arguments is read and is a single call, and a call in braces is read. -/
theorem argumentsOf?_calls_generic :
    argumentsOf? "newFunction<T>(a, f(b, c));" = some ["a", "f(b, c)"] ∧
      SingleCall (bareCall "newFunction<T>(a, f(b, c));".toList) ∧
      argumentsOf? "\x7bnewFunction(a, f(b, c))\x7d;" = some ["a", "f(b, c)"] := by
  have hname : IsName "newFunction" := by decide +kernel
  have hcallee : IsCallee "newFunction<T>".toList :=
    ⟨"newFunction".toList, "<T>".toList, rfl, hname.1, fun c hc => .inl (hname.2 c hc),
      .inr ⟨"T".toList, rfl, by decide +kernel, by decide +kernel⟩⟩
  have hcall : bareCall "newFunction<T>(a, f(b, c));".toList =
      "newFunction<T>".toList ++ '(' :: ("a, f(b, c)".toList ++ [')']) := by decide +kernel
  have hbefore : '(' ∉ "newFunction<T>".toList := by decide +kernel
  have hclose : closeOf? ('(' :: ("a, f(b, c)".toList ++ [')'])) =
      some ("a, f(b, c)".toList.length + 1) := by decide +kernel
  obtain ⟨hread, hsingle, -⟩ := argumentsOf?_calls "newFunction<T>(a, f(b, c));"
  obtain ⟨-, -, hforms⟩ := argumentsOf?_calls "\x7bnewFunction(a, f(b, c))\x7d;"
  refine ⟨?_, ?_, ?_⟩
  · exact (hread _).mpr ⟨_, _, _, hcall, hbefore, hclose, by decide +kernel⟩
  · exact ((hsingle _ _ _ hcall hbefore hclose).mpr ⟨hcallee, rfl, by decide +kernel⟩).1
  · exact hforms "newFunction" ["a", "f(b, c)"] hname (by decide +kernel) (by decide +kernel)

/-- A keyword before the call is not looked at. -/
theorem keyword_before_call :
    (argumentsOf? "await newFunction(a)" = some ["a"] ∧
      ¬SingleCall (bareCall "await newFunction(a)".toList)) ∧
    argumentsOf? "return newFunction(a);" = some ["a"] ∧
      ¬SingleCall (bareCall "return newFunction(a);".toList) := by
  have hclose : closeOf? ('(' :: (['a'] ++ [')'])) = some (['a'].length + 1) := by decide
  -- a callee has no blank outside its type arguments
  have hblank : ∀ before : List Char, ' ' ∈ before → '<' ∉ before → ¬IsCallee before := by
    rintro before hmem hangle ⟨path, typeArguments, rfl, -, hpath, rfl | ⟨inner, rfl, -⟩⟩
    · rw [List.append_nil] at hmem
      exact absurd (hpath ' ' hmem) (by decide)
    · exact hangle (List.mem_append_right _ List.mem_cons_self)
  have hsingle : ∀ before : List Char, '(' ∉ before → ' ' ∈ before → '<' ∉ before →
      (Scan.initial.run before).region = .code →
      ¬SingleCall (before ++ '(' :: (['a'] ++ [')'])) := by
    intro before hparen hmem hangle hcode hcall
    exact hblank before hmem hangle ((singleCall_iff hparen hclose).mp ⟨hcall, hcode⟩).1
  have hawait : bareCall "await newFunction(a)".toList =
      "await newFunction".toList ++ '(' :: (['a'] ++ [')']) := by decide +kernel
  have hreturn : bareCall "return newFunction(a);".toList =
      "return newFunction".toList ++ '(' :: (['a'] ++ [')']) := by decide +kernel
  refine ⟨⟨by decide +kernel, ?_⟩, by decide +kernel, ?_⟩
  · rw [hawait]
    exact hsingle _ (by decide +kernel) (by decide +kernel) (by decide +kernel) (by decide +kernel)
  · rw [hreturn]
    exact hsingle _ (by decide +kernel) (by decide +kernel) (by decide +kernel) (by decide +kernel)

-- the kind of the last bracket is not looked at either
example : argumentsOf? "newFunction(a]" = some ["a"] := by decide +kernel

-- the parenthesis is closed at the angle bracket, which the literal hides
example : argumentsOf? "f(=\"\">(x)" = some ["=\"\">(x"] := by decide +kernel

end Assist.Extraction
