import Assist.Proofs.Offsets.Partial
import Assist.Proofs.Signature.Closed

/-!
# Scanning code by offset

The scan for brackets reads the bytes of a text by index. A string literal is passed over by a loop
of its own, in which a backslash takes the next byte with it, whatever character that byte is a part
of. The scan never reads past the end of the text, and the bytes of code that it yields are the
bytes of the characters of code, each at the offset of its character (`codeBytes_eq`).
-/

namespace Assist.Offsets

open Assist.Text Assist.Signature

/-! ## The loops -/

/-- The index after the string literal whose inside goes on at `index`. -/
def skipString (bs : List UInt8) (quote : Char) (index : Nat) : Except Fault Nat :=
  if index < bs.length then do
    let c := Char.ofUInt8 (← item bs index)
    if c = '\\' then skipString bs quote (index + 2)
    else if c = quote then return index + 1
    else skipString bs quote (index + 1)
  else return index
termination_by bs.length - index

section Strings

variable {bs rest : List UInt8} {quote : Char} {index next : Nat} {b : UInt8}

theorem skipString_of_nil (h : bs.drop index = []) : skipString bs quote index = .ok index := by
  rw [skipString, if_neg (Nat.not_lt.mpr (le_of_drop_eq_nil h))]
  rfl

/-- One step through a string literal. -/
theorem skipString_of_cons (h : bs.drop index = b :: rest) :
    skipString bs quote index =
      if Char.ofUInt8 b = '\\' then skipString bs quote (index + 2)
      else if Char.ofUInt8 b = quote then .ok (index + 1)
      else skipString bs quote (index + 1) := by
  rw [skipString, if_pos (lt_length_of_drop h), item_of_drop h]
  rfl

theorem le_of_skipString (h : skipString bs quote index = .ok next) : index ≤ next := by
  fun_induction skipString bs quote index with
  | case1 index hlt escaped inside =>
    have hdrop := List.drop_eq_getElem_cons hlt
    rw [item_of_drop hdrop, ok_bind] at h
    dsimp only at h
    split at h
    · exact Nat.le_trans (Nat.le_add_right index 2) (escaped h)
    · split at h
      · cases h
        exact Nat.le_add_right index 1
      · exact Nat.le_trans (Nat.le_add_right index 1) (inside h)
  | case2 index hlt =>
    cases h
    exact Nat.le_refl _

end Strings

/-- The bytes of code from `index` on, with `depth` brackets open and `prev` before them. -/
def codeFrom (bs : List UInt8) (index : Nat) (depth : Int) (prev : Char) :
    Except Fault (List Mark) :=
  if hlt : index < bs.length then do
    let c := Char.ofUInt8 (← item bs index)
    if isQuote c then
      match _ : skipString bs c (index + 1) with
      | .ok next => codeFrom bs next depth c
      | .error fault => .error fault
    else
      let next := Scan.depthAfter ⟨.code, depth, prev⟩ c
      return ⟨index, c, depth⟩ :: (← codeFrom bs (index + 1) next c)
  else return []
termination_by bs.length - index
decreasing_by
  · have := le_of_skipString ‹_›
    omega
  · omega

/-- The bytes of code in a text. -/
def codeBytes (cs : List Char) : Except Fault (List Mark) :=
  codeFrom (utf8 cs) 0 Scan.initial.depth Scan.initial.prev

/-! ## Steps of the scan -/

section Steps

variable {bs rest : List UInt8} {quote : Char} {index next : Nat} {depth : Int} {prev : Char}
  {b : UInt8}

theorem codeFrom_of_nil (h : bs.drop index = []) : codeFrom bs index depth prev = .ok [] := by
  rw [codeFrom, dif_neg (Nat.not_lt.mpr (le_of_drop_eq_nil h))]
  rfl

/-- A quote starts a string literal, which is passed over. -/
theorem codeFrom_of_quote (h : bs.drop index = b :: rest) (hquote : isQuote (Char.ofUInt8 b) = true)
    (hnext : skipString bs (Char.ofUInt8 b) (index + 1) = .ok next) :
    codeFrom bs index depth prev = codeFrom bs next depth (Char.ofUInt8 b) := by
  rw [codeFrom, dif_pos (lt_length_of_drop h), item_of_drop h, ok_bind, if_pos hquote]
  split
  · rename_i found hfound
    rw [hnext] at hfound
    cases hfound
    rfl
  · rename_i fault hfault
    rw [hnext] at hfault
    cases hfault

/-- Any other byte is code. -/
theorem codeFrom_of_code (h : bs.drop index = b :: rest)
    (hquote : isQuote (Char.ofUInt8 b) = false) :
    codeFrom bs index depth prev = do
      return ⟨index, Char.ofUInt8 b, depth⟩ ::
        (← codeFrom bs (index + 1) (Scan.depthAfter ⟨.code, depth, prev⟩ (Char.ofUInt8 b))
          (Char.ofUInt8 b)) := by
  rw [codeFrom, dif_pos (lt_length_of_drop h), item_of_drop h, ok_bind, if_neg (by simp [hquote])]

end Steps

/-! ## Characters beyond ASCII -/

/-- Characters beyond ASCII mean nothing to a scan. -/
theorem isInert_of_wide {c : Char} (hc : 128 ≤ c.toNat) : isInert c = true := by
  have hne : ∀ d : Char, d.toNat < 128 → (c == d) = false := fun d hd =>
    beq_false_of_ne (ne_of_wide hc hd)
  simp only [isInert, isQuote, opens, bne]
  rw [hne '"' (by decide), hne '\x27' (by decide), hne '\x60' (by decide), hne '(' (by decide),
    hne '[' (by decide), hne '{' (by decide), hne '<' (by decide), hne ')' (by decide),
    hne ']' (by decide), hne '}' (by decide), hne '>' (by decide)]
  rfl

theorem isQuote_of_isInert {c : Char} (h : isInert c = true) : isQuote c = false := by
  simp only [isInert, Bool.and_eq_true, Bool.not_eq_true'] at h
  exact h.1.1.1.1.1

theorem closes_of_isInert {c : Char} (h : isInert c = true) (prev : Char) :
    closes prev c = false := by
  simp only [isInert, Bool.and_eq_true, bne_iff_ne] at h
  obtain ⟨⟨⟨⟨-, hparen⟩, hbracket⟩, hbrace⟩, hangle⟩ := h
  simp [closes, hparen, hbracket, hbrace, hangle]

theorem depthAfter_of_isInert {c : Char} (h : isInert c = true) (depth : Int) (prev : Char) :
    Scan.depthAfter ⟨.code, depth, prev⟩ c = depth := by
  have hopens : opens c = false := by
    simp only [isInert, Bool.and_eq_true, Bool.not_eq_true'] at h
    exact h.1.1.1.1.2
  simp [Scan.depthAfter, hopens, closes_of_isInert h]

/-- The bytes from offset `start` on, as they are found `depth` brackets deep. -/
def spread (start : Nat) (bytes : List UInt8) (depth : Int) : List Mark :=
  (bytes.zipIdx start).map fun (b, index) => ⟨index, Char.ofUInt8 b, depth⟩

section Wide

variable {bs wide rest : List UInt8} {quote : Char} {index : Nat}

/-- In a string literal a scan passes over bytes beyond ASCII. -/
theorem skipString_of_isWide (hquote : quote.toNat < 128) (h : bs.drop index = wide ++ rest)
    (hwide : IsWide wide) :
    skipString bs quote index = skipString bs quote (index + wide.length) := by
  induction wide generalizing index with
  | nil => rfl
  | cons b wide ih =>
    have hb : 128 ≤ (Char.ofUInt8 b).toNat := by
      rw [toNat_ofUInt8]
      exact hwide b List.mem_cons_self
    rw [skipString_of_cons h, if_neg (ne_of_wide hb (by decide)), if_neg (ne_of_wide hb hquote),
      ih (drop_succ h) fun x hx => hwide x (List.mem_cons_of_mem b hx), List.length_cons]
    congr 1
    omega

/-- In code a scan finds bytes beyond ASCII and is as deep after them as before. -/
theorem codeFrom_of_isWide (h : bs.drop index = wide ++ rest) (hwide : IsWide wide) (depth : Int)
    (prev : Char) : ∃ last, (wide = [] ∧ last = prev ∨ 128 ≤ last.toNat) ∧
      codeFrom bs index depth prev = do
        return spread index wide depth ++ (← codeFrom bs (index + wide.length) depth last) := by
  induction wide generalizing index prev with
  | nil =>
    refine ⟨prev, Or.inl ⟨rfl, rfl⟩, ?_⟩
    simp only [spread, List.zipIdx_nil, List.map_nil, List.nil_append, List.length_nil,
      Nat.add_zero]
    exact (bind_pure _).symm
  | cons b wide ih =>
    have hb : 128 ≤ (Char.ofUInt8 b).toNat := by
      rw [toNat_ofUInt8]
      exact hwide b List.mem_cons_self
    have hinert := isInert_of_wide hb
    obtain ⟨last, hlast, hrest⟩ := ih (drop_succ h)
      (fun x hx => hwide x (List.mem_cons_of_mem b hx)) (Char.ofUInt8 b)
    refine ⟨last, Or.inr ?_, ?_⟩
    · obtain ⟨-, rfl⟩ | hlast := hlast
      · exact hb
      · exact hlast
    · rw [codeFrom_of_code h (isQuote_of_isInert hinert), depthAfter_of_isInert hinert, hrest,
        List.length_cons, Nat.add_right_comm index 1, Nat.add_assoc index]
      simp [spread]

end Wide

/-! ## The scan by characters and by bytes -/

/-- The bytes of a character of code, at its offset in the text. -/
def bytesOf (text : List Char) (m : Mark) : List Mark :=
  spread (offsetOf text m.index) (String.utf8EncodeChar m.char) m.depth

theorem marksFrom_escaped (quote : Char) (depth : Int) (prev : Char) (place : Nat) (c : Char)
    (cs : List Char) : marksFrom ⟨.escaped quote, depth, prev⟩ place (c :: cs) =
      marksFrom ⟨.quoted quote, depth, prev⟩ (place + 1) cs := by
  simp [marksFrom, Scan.isCode, Scan.step]

theorem marksFrom_quoted (quote : Char) (depth : Int) (prev : Char) (place : Nat) (c : Char)
    (cs : List Char) : marksFrom ⟨.quoted quote, depth, prev⟩ place (c :: cs) =
      if c = '\\' then marksFrom ⟨.escaped quote, depth, prev⟩ (place + 1) cs
      else if c = quote then marksFrom ⟨.code, depth, prev⟩ (place + 1) cs
      else marksFrom ⟨.quoted quote, depth, prev⟩ (place + 1) cs := by
  simp only [marksFrom, Scan.isCode, Scan.step]
  split
  · rename_i h
    simp at h
  · split_ifs <;> rfl

/-- The loop through a string literal takes one character after the other. -/
theorem skipString_of_char {bs rest : List UInt8} {quote c : Char} (hquote : quote.toNat < 128)
    {index : Nat} (h : bs.drop index = String.utf8EncodeChar c ++ rest) (hslash : c ≠ '\\') :
    skipString bs quote index =
      if c = quote then .ok (index + 1)
      else skipString bs quote (index + (String.utf8EncodeChar c).length) := by
  by_cases hc : c.toNat < 128
  · obtain ⟨b, hencode, rfl, -⟩ := utf8EncodeChar_of_ascii hc
    rw [hencode] at h ⊢
    rw [skipString_of_cons h, if_neg hslash]
    rfl
  · rw [if_neg (ne_of_wide (Nat.le_of_not_lt hc) hquote)]
    exact skipString_of_isWide hquote h (isWide_utf8EncodeChar hc)

/-- The loop through a string literal ends where the scan of its characters is back in code. -/
theorem skipString_eq {bs : List UInt8} {quote : Char} (hquote : quote.toNat < 128) :
    ∀ (cs : List Char) {index : Nat}, bs.drop index = utf8 cs →
      ∃ next skipped, skipString bs quote index = .ok next ∧ bs.drop next = utf8 (cs.drop skipped) ∧
        ∀ depth prev place, marksFrom ⟨.quoted quote, depth, prev⟩ place cs =
          marksFrom ⟨.code, depth, prev⟩ (place + skipped) (cs.drop skipped)
  | [], index, h => ⟨index, 0, skipString_of_nil h, h, fun _ _ _ => rfl⟩
  | c :: cs, index, h => by
    rw [utf8_cons] at h
    by_cases hslash : c = '\\'
    · subst hslash
      have hbyte : bs.drop index = 0x5C :: utf8 cs := h
      rw [skipString_of_cons hbyte, if_pos (by decide)]
      match cs with
      | [] =>
        have hend : bs.drop (index + 2) = [] := by
          rw [← List.drop_drop, hbyte]
          rfl
        exact ⟨index + 2, 1, skipString_of_nil hend, hend, fun _ _ _ => rfl⟩
      | d :: cs =>
        -- the loop takes one byte of the character after the backslash, and passes over the others
        obtain ⟨b, wide, hencode, hwide⟩ := exists_utf8EncodeChar_cons d
        have hdrop : bs.drop (index + 2) = wide ++ utf8 cs := by
          have hnext := drop_succ hbyte
          rw [utf8_cons, hencode] at hnext
          exact drop_succ hnext
        obtain ⟨next, skipped, hnext, hleft, hmarks⟩ :=
          skipString_eq hquote cs (drop_add_length hdrop)
        refine ⟨next, skipped + 2, ?_, hleft, fun depth prev place => ?_⟩
        · rw [skipString_of_isWide hquote hdrop hwide, hnext]
        · rw [marksFrom_quoted, if_pos rfl, marksFrom_escaped, hmarks]
          congr 1
          omega
    · rw [skipString_of_char hquote h hslash]
      have hrest := drop_add_length h
      by_cases hend : c = quote
      · subst hend
        rw [if_pos rfl]
        have hone : (String.utf8EncodeChar c).length = 1 := by
          rw [String.length_utf8EncodeChar, utf8Size_of_ascii hquote]
        rw [hone] at hrest
        refine ⟨index + 1, 1, rfl, hrest, fun depth prev place => ?_⟩
        rw [marksFrom_quoted, if_neg hslash, if_pos rfl]
        rfl
      · rw [if_neg hend]
        obtain ⟨next, skipped, hnext, hleft, hmarks⟩ := skipString_eq hquote cs hrest
        refine ⟨next, skipped + 1, hnext, hleft, fun depth prev place => ?_⟩
        rw [marksFrom_quoted, if_neg hslash, if_neg hend, hmarks]
        congr 1
        omega

theorem toNat_of_isQuote {c : Char} (h : isQuote c = true) : c.toNat < 128 := by
  simp only [isQuote, Bool.or_eq_true, beq_iff_eq] at h
  rcases h with (rfl | rfl) | rfl <;> decide

theorem marksFrom_code (depth : Int) (prev : Char) (place : Nat) (c : Char) (cs : List Char) :
    marksFrom ⟨.code, depth, prev⟩ place (c :: cs) =
      if isQuote c then marksFrom ⟨.quoted c, depth, c⟩ (place + 1) cs
      else ⟨place, c, depth⟩ ::
        marksFrom ⟨.code, Scan.depthAfter ⟨.code, depth, prev⟩ c, c⟩ (place + 1) cs := by
  cases hquote : isQuote c <;> simp [marksFrom, Scan.isCode, Scan.step, hquote]

/-- The scan takes one character of code after the other. -/
theorem codeFrom_of_char {bs rest : List UInt8} {index : Nat} {c : Char}
    (h : bs.drop index = String.utf8EncodeChar c ++ rest) (hquote : isQuote c = false) (depth : Int)
    (prev : Char) : ∃ last, (last = '=' ↔ c = '=') ∧
      codeFrom bs index depth prev = do
        return spread index (String.utf8EncodeChar c) depth ++
          (← codeFrom bs (index + (String.utf8EncodeChar c).length)
            (Scan.depthAfter ⟨.code, depth, prev⟩ c) last) := by
  by_cases hc : c.toNat < 128
  · obtain ⟨b, hencode, rfl, -⟩ := utf8EncodeChar_of_ascii hc
    refine ⟨Char.ofUInt8 b, Iff.rfl, ?_⟩
    rw [hencode] at h ⊢
    rw [codeFrom_of_code h hquote]
    rfl
  · have hwide : 128 ≤ c.toNat := Nat.le_of_not_lt hc
    obtain ⟨last, hlast, hrun⟩ := codeFrom_of_isWide h (isWide_utf8EncodeChar hc) depth prev
    refine ⟨last, ?_, ?_⟩
    · obtain ⟨hnil, -⟩ | hlast := hlast
      · obtain ⟨b, wide, hencode, -⟩ := exists_utf8EncodeChar_cons c
        rw [hencode] at hnil
        cases hnil
      · exact iff_of_false (ne_of_wide hlast (by decide)) (ne_of_wide hwide (by decide))
    · rw [hrun, depthAfter_of_isInert (isInert_of_wide hwide)]

/-- Where the end of a text that is not empty starts. -/
theorem eq_offsetOf_of_drop {text cs : List Char} {index place : Nat} {c : Char}
    (h : (utf8 text).drop index = utf8 (text.drop place)) (hcs : text.drop place = c :: cs) :
    index = offsetOf text place := by
  have hlen := congrArg List.length h
  have hsplit : byteLen text = offsetOf text place + byteLen (text.drop place) := by
    rw [offsetOf, ← byteLen_append, List.take_append_drop]
  have hpos : 0 < byteLen (text.drop place) := by
    rw [hcs, byteLen_cons]
    exact Nat.add_pos_left c.utf8Size_pos _
  rw [List.length_drop, length_utf8, length_utf8] at hlen
  omega

/-- The bytes of code are the bytes of the characters of code. What stands before counts only by
whether it is `=`, because of `=>`. -/
theorem codeFrom_eq {text : List Char} {index place : Nat}
    (h : (utf8 text).drop index = utf8 (text.drop place)) (depth : Int) {prev last : Char}
    (hprev : prev = '=' ↔ last = '=') :
    codeFrom (utf8 text) index depth prev =
      .ok ((marksFrom ⟨.code, depth, last⟩ place (text.drop place)).flatMap (bytesOf text)) := by
  induction hleft : text.length - place using Nat.strongRecOn
    generalizing index place depth prev last with
  | _ left ih =>
  cases hcs : text.drop place with
  | nil =>
    rw [hcs] at h
    rw [codeFrom_of_nil h]
    rfl
  | cons c cs =>
    have hindex := eq_offsetOf_of_drop h hcs
    have hplace := lt_length_of_drop hcs
    have hnext : text.drop (place + 1) = cs := drop_succ hcs
    rw [hcs, utf8_cons] at h
    rw [marksFrom_code]
    cases hquote : isQuote c with
    | true =>
      have hc := toNat_of_isQuote hquote
      obtain ⟨b, hencode, rfl, -⟩ := utf8EncodeChar_of_ascii hc
      rw [hencode, List.singleton_append] at h
      obtain ⟨next, skipped, hskip, hdrop, hmarks⟩ := skipString_eq hc cs (drop_succ h)
      have hrest : text.drop (place + 1 + skipped) = cs.drop skipped := by
        rw [← List.drop_drop, hnext]
      rw [codeFrom_of_quote h hquote hskip, if_pos rfl, hmarks, ← hrest]
      exact ih _ (by omega) (by rw [hrest]; exact hdrop) depth Iff.rfl rfl
    | false =>
      obtain ⟨new, hnew, hrun⟩ := codeFrom_of_char h hquote depth prev
      have hdepth : Scan.depthAfter ⟨.code, depth, prev⟩ c =
          Scan.depthAfter ⟨.code, depth, last⟩ c := by
        simp only [Scan.depthAfter, Scan.closes_congr hprev c]
      have hrest : (utf8 text).drop (index + (String.utf8EncodeChar c).length) =
          utf8 (text.drop (place + 1)) := by
        rw [hnext]
        exact drop_add_length h
      rw [hrun, if_neg Bool.false_ne_true, hdepth, List.flatMap_cons, ← hnext,
        ih (text.length - (place + 1)) (by omega) hrest _ hnew rfl, bytesOf, hindex]
      rfl

theorem codeBytes_eq (cs : List Char) : codeBytes cs = .ok ((marks cs).flatMap (bytesOf cs)) :=
  codeFrom_eq (show (utf8 cs).drop 0 = utf8 (cs.drop 0) from rfl) Scan.initial.depth Iff.rfl

end Assist.Offsets
