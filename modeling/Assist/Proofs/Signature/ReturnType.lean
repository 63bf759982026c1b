import Assist.Proofs.Signature.Header

/-!
# Return types with braces

Behind a return type stands the brace of a body or the semicolon of a declaration without one. A
reader tells them apart by the last brace at the top level. With a body that is always the brace of
the body. Without one it is a brace of the type, and it is taken for that of a body unless the type
is one object type and nothing else (`OnlyOuterBrace`): so `A | { b: string };` is read as the type
`A |` and a body (`union_read_as_body`).
-/

namespace Assist.Signature

open Assist.Text

/-! ## The last brace -/

theorem filter_shift_topLevel (target : Char) (places : Nat) (ms : List Mark) :
    (ms.map (Mark.shift places 0)).filter (fun m => m.char == target && m.depth == 0) =
      (ms.filter fun m => m.char == target && m.depth == 0).map (Mark.shift places 0) := by
  rw [List.filter_map]
  congr 1
  refine List.filter_congr fun m _ => ?_
  simp [Mark.shift]

/-- What stands around a text moves the last occurrence in it, if it has none of its own. -/
theorem lastTopLevel?_pad {target : Char} {xs cs ys : List Char} (hxs : Closed xs) (hcs : Closed cs)
    (hys : Closed ys) (hfx : FreeOf target xs) (hfy : FreeOf target ys) :
    lastTopLevel? target (xs ++ (cs ++ ys)) = (lastTopLevel? target cs).map (· + xs.length) := by
  have hnil : ∀ zs, FreeOf target zs →
      (marks zs).filter (fun m => m.char == target && m.depth == 0) = [] := by
    intro zs hfree
    rw [List.filter_eq_nil_iff]
    intro m hm hfound
    simp only [Bool.and_eq_true, beq_iff_eq] at hfound
    exact hfree m hm hfound.2 hfound.1
  rw [lastTopLevel?, lastTopLevel?, hxs.marks_append (hcs.append hys), hcs.marks_append hys,
    List.map_append, List.filter_append, List.filter_append, hnil xs hfx, List.nil_append,
    filter_shift_topLevel, filter_shift_topLevel, filter_shift_topLevel, hnil ys hfy, List.map_nil,
    List.map_nil, List.append_nil, List.getLast?_map, Option.map_map, Option.map_map]
  rfl

theorem exists_mark_of_lastTopLevel? {target : Char} {cs : List Char} {place : Nat}
    (h : lastTopLevel? target cs = some place) :
    ∃ m ∈ marks cs, m.char = target ∧ m.depth = 0 ∧ m.index = place := by
  obtain ⟨m, hlast, rfl⟩ := Option.map_eq_some_iff.mp h
  obtain ⟨hm, hfound⟩ := List.mem_filter.mp (List.mem_of_getLast? hlast)
  simp only [Bool.and_eq_true, beq_iff_eq] at hfound
  exact ⟨m, hm, hfound.1, hfound.2, rfl⟩

theorem freeOf_of_lastTopLevel? {target : Char} {cs : List Char}
    (h : lastTopLevel? target cs = none) : FreeOf target cs := by
  intro m hm hdepth hchar
  rw [lastTopLevel?, Option.map_eq_none_iff, List.getLast?_eq_none_iff, List.filter_eq_nil_iff] at h
  exact h m hm (by simp [hchar, hdepth])

theorem marksFrom_pairwise (s : Scan) (index : Nat) (cs : List Char) :
    (marksFrom s index cs).Pairwise fun m n => m.index < n.index := by
  induction cs generalizing s index with
  | nil => exact List.Pairwise.nil
  | cons c cs ih =>
    rw [marksFrom]
    split
    · refine List.Pairwise.cons (fun n hn => ?_) (ih _ _)
      have := index_lt_of_mem_marksFrom hn
      show index < n.index
      omega
    · exact ih _ _

theorem index_le_of_lastTopLevel? {target : Char} {cs : List Char} {place : Nat}
    (h : lastTopLevel? target cs = some place) {m : Mark} (hm : m ∈ marks cs)
    (hchar : m.char = target) (hdepth : m.depth = 0) : m.index ≤ place := by
  obtain ⟨last, hlast, rfl⟩ := Option.map_eq_some_iff.mp h
  obtain ⟨before, hfilter⟩ := List.getLast?_eq_some_iff.mp hlast
  have hmem : m ∈ before ++ [last] := by
    rw [← hfilter]
    exact List.mem_filter.mpr ⟨hm, by simp [hchar, hdepth]⟩
  have hsorted := (marksFrom_pairwise Scan.initial 0 cs).filter
    (fun m => m.char == target && m.depth == 0)
  rw [show marksFrom Scan.initial 0 cs = marks cs from rfl, hfilter,
    List.pairwise_append] at hsorted
  rcases List.mem_append.mp hmem with hbefore | hend
  · exact Nat.le_of_lt (hsorted.2.2 m hbefore last (by simp))
  · rw [List.mem_singleton.mp hend]

/-! ## Where a bracket closes -/

/-- A mark at the top level closes nothing. -/
theorem closeAmong?_concat {m : Mark} (hm : m.depth = 0) (prev : Char) (ms : List Mark) :
    closeAmong? prev (ms ++ [m]) = closeAmong? prev ms := by
  induction ms generalizing prev with
  | nil => simp [closeAmong?, hm]
  | cons n ms ih =>
    rw [List.cons_append, closeAmong?, closeAmong?, ih]

theorem closeOf?_concat {cs : List Char} (hcs : Closed cs) (hne : cs ≠ []) :
    closeOf? (cs ++ [';']) = closeOf? cs := by
  have hmarks := marks_closed_append hcs (by decide : isQuote ';' = false) []
  rw [marksFrom] at hmarks
  obtain ⟨c, rest, rfl⟩ := List.exists_cons_of_ne_nil hne
  rw [List.cons_append] at hmarks ⊢
  rw [closeOf?, closeOf?, hmarks, closeAmong?_concat rfl]

/-! ## A declaration without a body -/

/-- The text has no brace at its top level, or it starts with its only one and ends with the bracket
that closes it. -/
def OnlyOuterBrace (type : List Char) : Prop :=
  ∀ m ∈ marks type, m.char = '{' → m.depth = 0 →
    m.index = 0 ∧ closeOf? type = some (type.length - 1)

instance (type : List Char) : Decidable (OnlyOuterBrace type) :=
  inferInstanceAs (Decidable (∀ m ∈ marks type, m.char = '{' → m.depth = 0 →
    m.index = 0 ∧ closeOf? type = some (type.length - 1)))

/-- A return type that can stand before a semicolon. -/
structure IsDeclaredType (type : List Char) : Prop where
  nonempty : type ≠ []
  trimmed : trim type = type
  closed : Closed type
  last : type.getLast? ≠ some ';'

namespace IsDeclaredType

variable {type : List Char} (h : IsDeclaredType type)

include h

theorem lastTopLevel?_after : lastTopLevel? '{' (' ' :: (type ++ [';'])) =
    (lastTopLevel? '{' type).map (· + 1) :=
  lastTopLevel?_pad (by decide : Closed [' ']) h.closed (by decide) (by decide) (by decide)

theorem bodiless_after : readTail?.bodiless (' ' :: (type ++ [';'])) =
    some (some (.text (String.ofList type)), false) := by
  obtain ⟨hhead, hlast⟩ := trim_eq_self_iff.mp h.trimmed
  obtain ⟨c, rest, hcons⟩ := List.exists_cons_of_ne_nil h.nonempty
  have htrimmed : trim (type ++ [';']) = type ++ [';'] := by
    have hc : isBlank c = false := hhead c (by rw [hcons]; rfl)
    have hstart : trimStart (type ++ [';']) = type ++ [';'] := by
      rw [hcons]
      exact trimStart_cons hc _
    rw [trim, hstart]
    exact trimEnd_concat (by decide) _
  have hsemicolon : trimEndBy (· == ';') (type ++ [';']) = type := by
    have hfirst : type.reverse.dropWhile (· == ';') = type.reverse := by
      cases hreverse : type.reverse with
      | nil => rfl
      | cons d ds =>
        have hd : d ≠ ';' := by
          rintro rfl
          refine h.last ?_
          rw [← List.head?_reverse, hreverse]
          rfl
        exact List.dropWhile_cons_of_neg (by simpa using hd)
    rw [trimEndBy, List.reverse_append]
    show (type.reverse.dropWhile (· == ';')).reverse = type
    rw [hfirst, List.reverse_reverse]
  rw [readTail?.bodiless, trim_space htrimmed, hsemicolon, trimEnd_eq_self_iff.mpr hlast,
    typeOfText?, if_neg (by simpa using h.nonempty)]

/-- The rest of a type behind a bracket is only a semicolon if there is no such rest. -/
theorem trim_drop_eq_iff (place : Nat) :
    (trim (type.drop place ++ [';']) == [] || trim (type.drop place ++ [';']) == [';']) = true ↔
      type.length ≤ place := by
  have hend : trimEnd (trimStart (type.drop place) ++ [';']) =
      trimStart (type.drop place) ++ [';'] := trimEnd_concat (by decide) _
  by_cases hplace : type.length ≤ place
  · rw [List.drop_eq_nil_of_le hplace]
    simp only [hplace, iff_true]
    decide
  · -- the type ends with a character that is not blank, and so does this rest of it
    have hlast : (type.drop place).getLast? = type.getLast? := by
      rw [List.getLast?_drop, if_neg hplace]
    have hkeep : trimStart (type.drop place) ≠ [] := by
      intro hnil
      have hall := List.dropWhile_eq_nil_iff.mp hnil
      obtain ⟨c, hc⟩ := Option.isSome_iff_exists.mp
        (by simpa using h.nonempty : type.getLast?.isSome = true)
      have hblank := hall c (List.mem_of_getLast? (hlast.trans hc))
      rw [(trim_eq_self_iff.mp h.trimmed).2 c hc] at hblank
      exact absurd hblank (by decide)
    have htrim : trim (type.drop place ++ [';']) = trimStart (type.drop place) ++ [';'] := by
      rw [trim, ← hend]
      congr 1
      unfold trimStart at hkeep ⊢
      rw [List.dropWhile_append, if_neg (by simpa using hkeep)]
    simp [htrim, hplace, hkeep]

theorem isLoneObjectType_after (brace : Nat) :
    isLoneObjectType (' ' :: (type ++ [';'])) (brace + 1) = true ↔
      brace = 0 ∧ closeOf? type = some (type.length - 1) := by
  have hblank : allBlank ((' ' :: (type ++ [';'])).take (brace + 1)) = true ↔ brace = 0 := by
    obtain ⟨c, rest, hcons⟩ := List.exists_cons_of_ne_nil h.nonempty
    have hc : isBlank c = false := (trim_eq_self_iff.mp h.trimmed).1 c (by rw [hcons]; rfl)
    cases brace with
    | zero => simp [allBlank]; decide
    | succ n => simp [allBlank, hcons, hc]
  rw [isLoneObjectType, Bool.and_eq_true, hblank]
  refine and_congr_right fun hzero => ?_
  subst hzero
  rw [show (' ' :: (type ++ [';'])).drop (0 + 1) = type ++ [';'] from rfl,
    closeOf?_concat h.closed h.nonempty]
  cases hclose : closeOf? type with
  | none => simp
  | some close =>
    have hlt := lt_length_of_closeOf? hclose
    have hdrop : (' ' :: (type ++ [';'])).drop (0 + 1 + close + 1) =
        type.drop (close + 1) ++ [';'] := by
      rw [show 0 + 1 + close + 1 = (close + 1) + 1 by omega, List.drop_succ_cons,
        List.drop_append_of_le_length (by omega)]
    simp only [hdrop]
    rw [h.trim_drop_eq_iff, Option.some.injEq]
    omega

theorem readTail?_semicolon (hbrace : OnlyOuterBrace type) :
    readTail? (':' :: ' ' :: (type ++ [';'])) =
      some (some (.text (String.ofList type)), false) := by
  rw [readTail?, h.lastTopLevel?_after]
  cases hlast : lastTopLevel? '{' type with
  | none => exact h.bodiless_after
  | some brace =>
    obtain ⟨m, hm, hchar, hdepth, rfl⟩ := exists_mark_of_lastTopLevel? hlast
    have hlone := (h.isLoneObjectType_after m.index).mpr (hbrace m hm hchar hdepth)
    simp only [Option.map_some, hlone, if_true]
    exact h.bodiless_after

/-- Any other brace at the top level is taken for that of a body. -/
theorem readTail?_semicolon_of_not (hbrace : ¬ OnlyOuterBrace type) :
    ∃ returnType, readTail? (':' :: ' ' :: (type ++ [';'])) = some (returnType, true) := by
  rw [readTail?, h.lastTopLevel?_after]
  cases hlast : lastTopLevel? '{' type with
  | none =>
    refine absurd (fun m hm hchar hdepth => ?_) hbrace
    exact absurd hchar (freeOf_of_lastTopLevel? hlast m hm hdepth)
  | some brace =>
    obtain ⟨m, hm, hchar, hdepth, rfl⟩ := exists_mark_of_lastTopLevel? hlast
    have hlone : isLoneObjectType (' ' :: (type ++ [';'])) (m.index + 1) = false := by
      rw [Bool.eq_false_iff, ne_eq, h.isLoneObjectType_after]
      rintro ⟨hzero, hclose⟩
      refine hbrace fun n hn hchar hdepth => ⟨?_, hclose⟩
      have := index_le_of_lastTopLevel? hlast hn hchar hdepth
      omega
    simp only [Option.map_some, hlone, Bool.false_eq_true, if_false]
    exact ⟨_, rfl⟩

end IsDeclaredType

/-! ## Return types before a semicolon and before a brace -/

theorem ofText?_function {text name : String} (hname : IsIdentifier name) {tail : List Char}
    (htext : text.toList = headerText [] false name none [] ++ tail) {returnType : Option TypeExpr}
    {hasBody : Bool} (htail : trimEnd tail = tail)
    (hread : readTail? (trimStart tail) = some (returnType, hasBody)) :
    FunctionDecl.ofText? text = some ⟨[], false, name, none, [], returnType,
      if hasBody then some [] else none⟩ := by
  rw [FunctionDecl.ofText?, htext]
  exact ofChars?_header (by simp) hname (by simp) Closed.nil rfl htail hread

/-- **Return types with braces.** Before a brace a return type is always read as it is written, and
the brace as that of a body. Before a semicolon it is read as it is written and without a body
exactly if it has only an outer brace. -/
theorem ofText?_returnType {name type : String} (hname : IsIdentifier name)
    (htype : IsDeclaredType type.toList) :
    (FunctionDecl.ofText? ("function " ++ name ++ "(): " ++ type ++ ";") =
        some ⟨[], false, name, none, [], some (.text type), none⟩ ↔ OnlyOuterBrace type.toList) ∧
      FunctionDecl.ofText? ("function " ++ name ++ "(): " ++ type ++ " \x7b") =
        some ⟨[], false, name, none, [], some (.text type), some []⟩ := by
  constructor
  · have htext : ("function " ++ name ++ "(): " ++ type ++ ";").toList =
        headerText [] false name none [] ++ ':' :: ' ' :: (type.toList ++ [';']) := by
      simp [headerText, nameText, keywordsText, typeParametersText]
    have htail : trimEnd (':' :: ' ' :: (type.toList ++ [';'])) =
        ':' :: ' ' :: (type.toList ++ [';']) :=
      trimEnd_concat (by decide) (':' :: ' ' :: type.toList)
    by_cases hbrace : OnlyOuterBrace type.toList
    · have hread := htype.readTail?_semicolon hbrace
      rw [String.ofList_toList] at hread
      rw [ofText?_function hname htext htail hread]
      simp [hbrace]
    · obtain ⟨returnType, hread⟩ := htype.readTail?_semicolon_of_not hbrace
      rw [ofText?_function hname htext htail hread]
      simp [hbrace]
  · have htext : ("function " ++ name ++ "(): " ++ type ++ " \x7b").toList =
        headerText [] false name none [] ++ (typeText (some type) ++ [' ', '{']) := by
      simp [headerText, nameText, keywordsText, typeParametersText, typeText]
    have htail : trimEnd (typeText (some type) ++ [' ', '{']) =
        typeText (some type) ++ [' ', '{'] := by
      have hend := trimEnd_concat (by decide : isBlank '{' = false) (typeText (some type) ++ [' '])
      rw [List.append_assoc] at hend
      exact hend
    have hread := readTail?_body htype.nonempty htype.trimmed htype.closed
      (List.not_mem_nil (a := '{'))
    rw [ofText?_function hname htext htail hread]
    rfl

theorem ofText?_returnType_object :
    FunctionDecl.ofText? "function f(): \x7b a: string \x7d;" =
        some ⟨[], false, "f", none, [], some (.text "\x7b a: string \x7d"), none⟩ ∧
      FunctionDecl.ofText? "function f(): \x7b a: string \x7d \x7b" =
        some ⟨[], false, "f", none, [], some (.text "\x7b a: string \x7d"), some []⟩ := by
  have hread := @ofText?_returnType "f" "\x7b a: string \x7d" (by decide)
    ⟨by decide, by decide, by decide, by decide⟩
  exact ⟨hread.1.mpr (by decide), hread.2⟩

/-- A union with an object type is read as its first part and a body, and a union that starts with
one as a body alone. -/
theorem union_read_as_body :
    (IsDeclaredType "A | \x7b b: string \x7d".toList ∧
      FunctionDecl.ofText? "function f(): A | \x7b b: string \x7d;" =
        some ⟨[], false, "f", none, [], some (.text "A |"), some []⟩) ∧
    IsDeclaredType "\x7b a: string \x7d | B".toList ∧
      FunctionDecl.ofText? "function f(): \x7b a: string \x7d | B;" =
        some ⟨[], false, "f", none, [], none, some []⟩ := by
  refine ⟨⟨⟨by decide, by decide, by decide, by decide⟩, ?_⟩,
    ⟨by decide, by decide, by decide, by decide⟩, ?_⟩
  · exact @ofText?_function _ "f" (by decide) ": A | \x7b b: string \x7d;".toList rfl _ true
      (by decide) rfl
  · exact @ofText?_function _ "f" (by decide) ": \x7b a: string \x7d | B;".toList rfl _ true
      (by decide) rfl

end Assist.Signature
