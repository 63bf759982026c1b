import Assist.Extraction.Edit
import Assist.Proofs.Offsets.Partial
import Assist.Proofs.Text.Indent

/-!
# Blanks and lines by offset

The leading blanks of a text as the part before an offset, its indentation as the part after the
last newline byte of these blanks, the indentation of a line of a file from where that line starts,
and a block moved to a new indentation by cutting every line. No text and no offset leads to a fault
(`leadingBlank_eq`, `indentOf_eq`, `indentAt_eq`, `startsLine_eq`, `indentBlock_eq`).
-/

namespace Assist.Offsets

open Assist.Text

/-! ## Blanks and lines -/

/-- The blank characters at the start of a text: what its trimmed end leaves. -/
def leadingBlank (cs : List Char) : Except Fault (List Char) := do
  let width ← less (byteLen cs) (byteLen (trimStart cs))
  textBefore width cs

theorem leadingBlank_eq (cs : List Char) : leadingBlank cs = .ok (Text.leadingBlank cs) := by
  have hsplit := leadingBlank_append_trimStart cs
  have hlen : byteLen cs = byteLen (Text.leadingBlank cs) + byteLen (trimStart cs) := by
    rw [← byteLen_append, hsplit]
  have hwidth : byteLen cs - byteLen (trimStart cs) = byteLen (Text.leadingBlank cs) := by omega
  have hbefore := textBefore_append (Text.leadingBlank cs) (trimStart cs)
  rw [hsplit] at hbefore
  rw [leadingBlank, less_of_le (by omega), ok_bind, hwidth, hbefore]

theorem textAfter_leadingBlank (cs : List Char) :
    textAfter (byteLen (Text.leadingBlank cs)) cs = .ok (trimStart cs) := by
  have hafter := textAfter_append (Text.leadingBlank cs) (trimStart cs)
  rwa [leadingBlank_append_trimStart] at hafter

/-- The index of the last byte of the given value. -/
def lastByte? (b : UInt8) : List UInt8 → Option Nat
  | [] => none
  | x :: xs =>
    match lastByte? b xs with
    | some index => some (index + 1)
    | none => if x == b then some 0 else none

theorem lastByte?_append (b : UInt8) (xs ys : List UInt8) :
    lastByte? b (xs ++ ys) = ((lastByte? b ys).map (xs.length + ·)).or (lastByte? b xs) := by
  induction xs with
  | nil => cases h : lastByte? b ys <;> simp [lastByte?, h]
  | cons x xs ih =>
    rw [List.cons_append, lastByte?, ih]
    cases lastByte? b ys with
    | none => simp [lastByte?]
    | some index => simp; omega

theorem lastByte?_of_not_mem {b : UInt8} {bs : List UInt8} (h : b ∉ bs) :
    lastByte? b bs = none := by
  induction bs with
  | nil => rfl
  | cons x xs ih =>
    rw [List.mem_cons, not_or] at h
    rw [lastByte?, ih h.2]
    exact if_neg (by simpa using Ne.symm h.1)

/-- The last newline byte of a text is its last newline, and what follows it is the last line. -/
theorem lastByte?_newline (cs : List Char) :
    (lastByte? 0x0A (utf8 cs) = none ∧ afterLast '\n' cs = cs) ∨
      ∃ before, cs = before ++ '\n' :: afterLast '\n' cs ∧
        lastByte? 0x0A (utf8 cs) = some (byteLen before) := by
  have hnone : ∀ {ds : List Char}, '\n' ∉ ds → lastByte? 0x0A (utf8 ds) = none := fun hmem =>
    lastByte?_of_not_mem fun hbyte => hmem (ofUInt8_mem_of_mem_utf8 (by decide) hbyte)
  have hline := not_mem_afterLast '\n' cs
  have hsplit : cs = (cs.reverse.dropWhile (· != '\n')).reverse ++ afterLast '\n' cs := by
    rw [afterLast, ← List.reverse_append, List.takeWhile_append_dropWhile, List.reverse_reverse]
  cases hrest : cs.reverse.dropWhile (· != '\n') with
  | nil =>
    rw [hrest, List.reverse_nil, List.nil_append] at hsplit
    refine Or.inl ⟨?_, hsplit.symm⟩
    rw [hsplit]
    exact hnone hline
  | cons c rest =>
    have hc : c = '\n' := by
      have hhead := List.head_dropWhile_not (· != '\n') (l := cs.reverse) (by simp [hrest])
      simpa [hrest] using hhead
    subst hc
    rw [hrest, List.reverse_cons, List.append_assoc, List.singleton_append] at hsplit
    refine Or.inr ⟨rest.reverse, hsplit, ?_⟩
    rw [hsplit, utf8_append, utf8_cons, lastByte?_append, lastByte?_append, hnone hline]
    simp [String.utf8EncodeChar, lastByte?]

/-- The indentation of a text: what follows the last newline byte of its leading blanks. -/
def indentOf (cs : List Char) : Except Fault (List Char) := do
  let blanks ← leadingBlank cs
  match lastByte? 0x0A (utf8 blanks) with
  | some index => textAfter (index + 1) blanks
  | none => return blanks

/-- What follows the last newline byte of the first part of a text is the last line of that part and
the rest of the text. -/
theorem textAfter_lastByte? (before after : List Char) :
    textAfter (((lastByte? 0x0A (utf8 before)).map (· + 1)).getD 0) (before ++ after) =
      .ok (afterLast '\n' before ++ after) := by
  obtain ⟨hnone, hline⟩ | ⟨start, hsplit, hsome⟩ := lastByte?_newline before
  · rw [hnone, hline]
    exact textAfter_append [] (before ++ after)
  · have hcut := textAfter_append (start ++ ['\n']) (afterLast '\n' before ++ after)
    rw [hsome, Option.map_some, Option.getD_some]
    have htext : before ++ after = start ++ ['\n'] ++ (afterLast '\n' before ++ after) := by
      conv_lhs => rw [hsplit]
      simp
    have hlen : byteLen (start ++ ['\n']) = byteLen start + 1 := byteLen_append start ['\n']
    rw [htext, ← hlen, hcut]

theorem indentOf_eq (cs : List Char) : indentOf cs = .ok (Text.indentOf cs) := by
  rw [indentOf, leadingBlank_eq, ok_bind, Text.indentOf]
  have hafter := textAfter_lastByte? (Text.leadingBlank cs) []
  rw [List.append_nil, List.append_nil] at hafter
  cases hlast : lastByte? 0x0A (utf8 (Text.leadingBlank cs)) with
  | none =>
    rw [hlast] at hafter
    simpa [textAfter] using hafter
  | some index =>
    rw [hlast] at hafter
    exact hafter

/-- The indentation of the line of `source` that `offset` is in, from the start of that line. -/
def indentAt (source : String) (offset : Offset) : Except Fault String := do
  let newline := (cut? offset.toNat source.toList).bind fun (before, _) =>
    lastByte? 0x0A (utf8 before)
  let line ← textAfter ((newline.map (· + 1)).getD 0) source.toList
  return String.ofList (← indentOf line)

theorem indentAt_eq (source : String) (offset : Offset) :
    indentAt source offset = .ok (Extraction.indentAt source offset) := by
  rw [indentAt, Extraction.indentAt]
  cases hcut : cut? offset.toNat source.toList with
  | none =>
    have hall := textAfter_append [] source.toList
    rw [List.nil_append, byteLen_nil] at hall
    simp [hall, indentOf_eq]
  | some parts =>
    obtain ⟨before, after⟩ := parts
    have hline := textAfter_lastByte? before after
    rw [← (eq_append_of_cut? hcut).1] at hline
    simp [hline, indentOf_eq]

/-- Whether a line of `source` starts at `offset`, by the byte before it. -/
def startsLine (source : String) (offset : Offset) : Except Fault Bool :=
  if offset == 0 then .ok true
  else do return byteAt? source (← less offset.toNat 1) == some 0x0A

theorem startsLine_eq (source : String) (offset : Offset) :
    startsLine source offset = .ok (Text.startsLine source offset) := by
  rw [startsLine, Text.startsLine]
  by_cases hzero : offset = 0
  · simp [hzero]
  · have hpos : 1 ≤ offset.toNat := by
      rw [Nat.one_le_iff_ne_zero]
      exact fun h => hzero (UInt32.toNat_inj.mp h)
    simp [hzero, less_of_le hpos]

/-! ## Blocks of lines -/

/-- How many bytes the spaces and tabs at the start of a line take. -/
def indentWidth (line : List Char) : Except Fault Nat :=
  less (byteLen line) (byteLen (line.dropWhile isIndent))

/-- The least indentation of the lines that are not blank, or zero if all are blank. -/
def commonIndent (lines : List (List Char)) : Except Fault Nat := do
  return ((← (lines.filter (!allBlank ·)).mapM indentWidth).min?).getD 0

/-- One line of a block under a new indentation, cut after `drop` bytes or at its end. -/
def indentLine (indent : List Char) (drop : Nat) (line : List Char) : Except Fault (List Char) :=
  if allBlank line then .ok []
  else do return indent ++ (← textAfter (min drop (byteLen line)) line)

/-- The lines of a block under a new indentation; the first is indented only if asked for. -/
def indentLines (indent : List Char) (indentFirst : Bool) :
    List (List Char) → Except Fault (List (List Char))
  | [] => .ok []
  | first :: rest => do
    let drop ← commonIndent (first :: rest)
    let first ← indentLine (if indentFirst then indent else []) drop first
    return first :: (← rest.mapM (indentLine indent drop))

/-- `text` under the indentation `indent`. -/
def indentBlock (text indent : String) (indentFirst : Bool) : Except Fault String := do
  let lines ← indentLines indent.toList indentFirst (blockLines text.toList)
  return String.ofList (['\n'].intercalate lines)

/-- Every character that indents takes one byte. -/
theorem byteLen_of_isIndent {cs : List Char} (h : ∀ c ∈ cs, isIndent c = true) :
    byteLen cs = cs.length := by
  induction cs with
  | nil => rfl
  | cons c cs ih =>
    have hc : c.toNat < 128 := by
      have hindent := h c List.mem_cons_self
      rw [isIndent, Bool.or_eq_true, beq_iff_eq, beq_iff_eq] at hindent
      obtain rfl | rfl := hindent <;> decide
    rw [byteLen_cons, utf8Size_of_ascii hc, ih fun d hd => h d (List.mem_cons_of_mem c hd),
      List.length_cons, Nat.add_comm]

theorem isIndent_of_mem_takeWhile {line : List Char} :
    ∀ c ∈ line.takeWhile isIndent, isIndent c = true := List.all_eq_true.mp List.all_takeWhile

theorem indentWidth_eq (line : List Char) : indentWidth line = .ok (Text.indentWidth line) := by
  have hlen : byteLen line =
      byteLen (line.takeWhile isIndent) + byteLen (line.dropWhile isIndent) := by
    rw [← byteLen_append, List.takeWhile_append_dropWhile]
  rw [indentWidth, less_of_le (by omega), Text.indentWidth,
    ← byteLen_of_isIndent isIndent_of_mem_takeWhile]
  congr 1
  omega

theorem commonIndent_eq (lines : List (List Char)) :
    commonIndent lines = .ok (Text.commonIndent lines) := by
  rw [commonIndent, mapM_ok fun line _ => indentWidth_eq line]
  rfl

theorem indentLine_eq (indent : List Char) {drop : Nat} {line : List Char}
    (hdrop : allBlank line = false → drop ≤ Text.indentWidth line) :
    indentLine indent drop line = .ok (Text.indentLine indent drop line) := by
  rw [indentLine, Text.indentLine]
  cases hblank : allBlank line with
  | true => rfl
  | false =>
    -- the characters that go are all spaces and tabs, so their number is the number of their bytes
    have hbytes : offsetOf line drop = drop := by
      rw [offsetOf, byteLen_of_isIndent (isIndent_of_mem_take (hdrop hblank)),
        length_take_of_le_indentWidth (hdrop hblank)]
    have hline : drop ≤ byteLen line := by
      rw [← hbytes, offsetOf]
      conv_rhs => rw [← List.take_append_drop drop line, byteLen_append]
      omega
    have hcut := textAfter_offsetOf line drop
    rw [hbytes] at hcut
    simp [Nat.min_eq_left hline, hcut]

theorem indentLines_eq (indent : List Char) (indentFirst : Bool) (lines : List (List Char)) :
    indentLines indent indentFirst lines = .ok (Text.indentLines indent indentFirst lines) := by
  cases lines with
  | nil => rfl
  | cons first rest =>
    have hfirst := indentLine_eq (if indentFirst then indent else [])
      (indentedBy_commonIndent (first :: rest) first List.mem_cons_self)
    have hrest := mapM_ok fun line hmem =>
      indentLine_eq indent
        (indentedBy_commonIndent (first :: rest) line (List.mem_cons_of_mem first hmem))
    rw [indentLines, commonIndent_eq, ok_bind, hfirst, ok_bind, hrest]
    rfl

theorem indentBlock_eq (text indent : String) (indentFirst : Bool) :
    indentBlock text indent indentFirst = .ok (Text.indentBlock text indent indentFirst) := by
  rw [indentBlock, indentLines_eq]
  rfl

end Assist.Offsets
