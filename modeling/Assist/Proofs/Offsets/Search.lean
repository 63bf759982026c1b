import Assist.Proofs.Offsets.Scan
import Assist.Proofs.Signature.TopLevel
import Assist.Signature.Parser

/-!
# Cutting code by offset

Where a bracket closes, where the separators at the top level are and where an initial value starts
are offsets that a scan found, and the text is cut there. All that is looked for are characters of
ASCII, and a byte of that value is such a character: so every offset found is the offset of a
character, and so is the one after it (`closeOf?_eq`, `topLevelPieces_eq`, `initializerAt?_eq`,
`lastTopLevel?_eq`). The same goes for the end of a name (`takeName?_eq`).
-/

namespace Assist.Offsets

open Assist.Text Assist.Signature

/-! ## Marks by offset -/

/-- A mark with its offset in place of its index. -/
def moved (text : List Char) (m : Mark) : Mark := { m with index := offsetOf text m.index }

section Marks

variable {text : List Char} {m : Mark}

theorem bytesOf_of_ascii (h : m.char.toNat < 128) : bytesOf text m = [moved text m] := by
  obtain ⟨b, hencode, hchar, -⟩ := utf8EncodeChar_of_ascii h
  simp [bytesOf, hencode, spread, moved, hchar]

theorem bytesOf_ne_nil : bytesOf text m ≠ [] := by
  obtain ⟨b, wide, hencode, -⟩ := exists_utf8EncodeChar_cons m.char
  simp [bytesOf, spread, hencode]

theorem wide_of_mem_bytesOf (h : ¬m.char.toNat < 128) {x : Mark} (hx : x ∈ bytesOf text m) :
    128 ≤ x.char.toNat := by
  obtain ⟨⟨b, index⟩, hmem, rfl⟩ := List.mem_map.mp hx
  have hb := isWide_utf8EncodeChar h b (List.fst_mem_of_mem_zipIdx hmem)
  rw [toNat_ofUInt8]
  exact hb

/-- A mark is at the place of its character. -/
theorem getElem?_of_mem_marksFrom {s : Scan} {place : Nat} {cs : List Char}
    (h : m ∈ marksFrom s place cs) : place ≤ m.index ∧ cs[m.index - place]? = some m.char := by
  induction cs generalizing s place with
  | nil => exact absurd h List.not_mem_nil
  | cons c cs ih =>
    have hlater : m ∈ marksFrom (s.step c) (place + 1) cs →
        place ≤ m.index ∧ (c :: cs)[m.index - place]? = some m.char := by
      intro hmem
      obtain ⟨hle, hget⟩ := ih hmem
      refine ⟨by omega, ?_⟩
      rw [show m.index - place = m.index - (place + 1) + 1 by omega, List.getElem?_cons_succ, hget]
    rw [marksFrom] at h
    split at h
    · rcases List.mem_cons.mp h with rfl | hmem
      · simp
      · exact hlater hmem
    · exact hlater h

theorem getElem?_of_mem_marks (h : m ∈ marks text) : text[m.index]? = some m.char := by
  have := (getElem?_of_mem_marksFrom h).2
  rwa [Nat.sub_zero] at this

/-- What is looked for by a test that only characters of ASCII pass is found at the offsets of
characters. -/
theorem filter_bytes {p : Mark → Bool} (hp : ∀ m, p m = true → m.char.toNat < 128)
    (ms : List Mark) : (ms.flatMap (bytesOf text)).filter p =
      (ms.filter fun m => p (moved text m)).map (moved text) := by
  induction ms with
  | nil => rfl
  | cons m ms ih =>
    rw [List.flatMap_cons, List.filter_append, ih, List.filter_cons]
    by_cases hm : m.char.toNat < 128
    · rw [bytesOf_of_ascii hm, List.filter_singleton]
      cases p (moved text m) <;> rfl
    · have hnone : (bytesOf text m).filter p = [] := by
        rw [List.filter_eq_nil_iff]
        intro x hx hpx
        have := wide_of_mem_bytesOf hm hx
        have := hp x hpx
        omega
      have hout : ¬p (moved text m) = true := fun h => hm (hp (moved text m) h)
      rw [hnone, if_neg hout, List.nil_append]

end Marks

/-! ## Brackets -/

theorem toNat_of_opens {c : Char} (h : opens c = true) : c.toNat < 128 := by
  simp only [opens, Bool.or_eq_true, beq_iff_eq] at h
  rcases h with ((rfl | rfl) | rfl) | rfl <;> decide

theorem toNat_of_closes {prev c : Char} (h : closes prev c = true) : c.toNat < 128 := by
  by_contra hc
  rw [closes_of_isInert (isInert_of_wide (Nat.le_of_not_lt hc))] at h
  exact Bool.false_ne_true h

/-- Only the first character of a text is at its start. -/
theorem offsetOf_pos_iff {text : List Char} {index : Nat} {c : Char}
    (h : text[index]? = some c) : 0 < offsetOf text index ↔ 0 < index := by
  cases text with
  | nil => simp at h
  | cons d text =>
    cases index with
    | zero => simp
    | succ index =>
      have := d.utf8Size_pos
      rw [offsetOf_cons_succ]
      omega

/-- Bytes beyond ASCII close nothing. -/
theorem closeAmong?_of_wide {bytes : List Mark} (h : ∀ x ∈ bytes, 128 ≤ x.char.toNat) (prev : Char)
    (ms : List Mark) : ∃ last, (bytes = [] ∧ last = prev ∨ 128 ≤ last.toNat) ∧
      closeAmong? prev (bytes ++ ms) = closeAmong? last ms := by
  induction bytes generalizing prev with
  | nil => exact ⟨prev, Or.inl ⟨rfl, rfl⟩, rfl⟩
  | cons x bytes ih =>
    have hx := h x List.mem_cons_self
    obtain ⟨last, hlast, hrest⟩ := ih (fun y hy => h y (List.mem_cons_of_mem x hy)) x.char
    refine ⟨last, Or.inr ?_, ?_⟩
    · obtain ⟨-, rfl⟩ | hlast := hlast
      · exact hx
      · exact hlast
    · rw [List.cons_append, closeAmong?, closes_of_isInert (isInert_of_wide hx), Bool.and_false,
        if_neg Bool.false_ne_true, hrest]

/-- The first byte that closes a bracket is the first character that does. -/
theorem closeAmong?_bytes {text : List Char} {ms : List Mark}
    (hms : ∀ m ∈ ms, text[m.index]? = some m.char) {prev last : Char}
    (hprev : prev = '=' ↔ last = '=') :
    closeAmong? prev (ms.flatMap (bytesOf text)) = (closeAmong? last ms).map (offsetOf text) := by
  induction ms generalizing prev last with
  | nil => rfl
  | cons m ms ih =>
    have hrest : ∀ {p q : Char}, (p = '=' ↔ q = '=') →
        closeAmong? p (ms.flatMap (bytesOf text)) = (closeAmong? q ms).map (offsetOf text) :=
      fun h => ih (fun n hn => hms n (List.mem_cons_of_mem m hn)) h
    rw [List.flatMap_cons]
    by_cases hm : m.char.toNat < 128
    · rw [bytesOf_of_ascii hm, List.singleton_append, closeAmong?, closeAmong?]
      simp only [moved, Scan.closes_congr hprev, offsetOf_pos_iff (hms m List.mem_cons_self)]
      split
      · rfl
      · exact hrest Iff.rfl
    · obtain ⟨new, hnew, hskip⟩ := closeAmong?_of_wide (fun x hx => wide_of_mem_bytesOf hm hx) prev
        (ms.flatMap (bytesOf text))
      have hwide : 128 ≤ m.char.toNat := Nat.le_of_not_lt hm
      rw [hskip, closeAmong?, closes_of_isInert (isInert_of_wide hwide), Bool.and_false,
        if_neg Bool.false_ne_true]
      refine hrest ?_
      obtain ⟨hnil, -⟩ | hnew := hnew
      · exact absurd hnil bytesOf_ne_nil
      · exact iff_of_false (ne_of_wide hnew (by decide)) (ne_of_wide hwide (by decide))

/-- A test that no character beyond ASCII passes can be made on the first byte. -/
theorem head?_utf8_any {p : Char → Bool} (hp : ∀ c, p c = true → c.toNat < 128) (cs : List Char) :
    ((utf8 cs).head?.map Char.ofUInt8).any p = cs.head?.any p := by
  cases cs with
  | nil => rfl
  | cons c cs =>
    rw [utf8_cons]
    by_cases hc : c.toNat < 128
    · obtain ⟨b, hencode, hchar, -⟩ := utf8EncodeChar_of_ascii hc
      simp [hencode, hchar]
    · obtain ⟨b, wide, hencode, -⟩ := exists_utf8EncodeChar_cons c
      have hb := isWide_utf8EncodeChar hc b (by rw [hencode]; exact List.mem_cons_self)
      have hfalse : ∀ d : Char, 128 ≤ d.toNat → p d = false := fun d hd =>
        Bool.eq_false_iff.mpr fun h => absurd (hp d h) (by omega)
      rw [hencode]
      simp [hfalse c (by omega), hfalse (Char.ofUInt8 b) (by rw [toNat_ofUInt8]; exact hb)]

/-- The offset of the bracket that closes the one `cs` starts with. -/
def closeOf? (cs : List Char) : Except Fault (Option Nat) :=
  if ((utf8 cs).head?.map Char.ofUInt8).any opens then do
    return closeAmong? '\x00' (← codeBytes cs)
  else return none

theorem closeOf?_eq (cs : List Char) :
    closeOf? cs = .ok ((Signature.closeOf? cs).map (offsetOf cs)) := by
  rw [closeOf?, head?_utf8_any (fun _ => toNat_of_opens), codeBytes_eq]
  cases cs with
  | nil => rfl
  | cons c cs =>
    rw [Signature.closeOf?, List.head?_cons, Option.any_some]
    split
    · rw [ok_bind, closeAmong?_bytes (fun m hm => getElem?_of_mem_marks hm) Iff.rfl]
      rfl
    · rfl

theorem exists_closing_of_closeAmong? {prev : Char} {ms : List Mark} {place : Nat}
    (h : closeAmong? prev ms = some place) :
    0 < place ∧ ∃ m ∈ ms, m.index = place ∧ m.char.toNat < 128 := by
  induction ms generalizing prev with
  | nil => cases h
  | cons m ms ih =>
    rw [closeAmong?] at h
    split at h
    · rename_i hclose
      simp only [Bool.and_eq_true, decide_eq_true_eq] at hclose
      cases h
      exact ⟨hclose.1.1, m, List.mem_cons_self, rfl, toNat_of_closes hclose.2⟩
    · obtain ⟨hpos, n, hn, hplace⟩ := ih h
      exact ⟨hpos, n, List.mem_cons_of_mem m hn, hplace⟩

/-- A bracket and the one that closes it are two characters of ASCII. -/
theorem brackets_of_closeOf? {cs : List Char} {close : Nat}
    (h : Signature.closeOf? cs = some close) :
    0 < close ∧ (∃ c, cs[0]? = some c ∧ c.toNat < 128) ∧
      ∃ c, cs[close]? = some c ∧ c.toNat < 128 := by
  cases cs with
  | nil => cases h
  | cons c cs =>
    rw [Signature.closeOf?] at h
    split at h
    · rename_i hopens
      obtain ⟨hpos, m, hm, rfl, hchar⟩ := exists_closing_of_closeAmong? h
      exact ⟨hpos, ⟨c, rfl, toNat_of_opens hopens⟩, m.char, getElem?_of_mem_marks hm, hchar⟩
    · cases h

section Groups

variable {cs : List Char} {close : Nat} (h : Signature.closeOf? cs = some close)
include h

theorem textBetween_brackets :
    textBetween 1 (offsetOf cs close) cs = .ok ((cs.take close).drop 1) := by
  obtain ⟨hpos, ⟨c, hget, hc⟩, -⟩ := brackets_of_closeOf? h
  have hone : offsetOf cs 1 = 1 := by rw [offsetOf_succ hget hc, offsetOf_zero]
  have hcut := textBetween_offsetOf cs (Nat.succ_le_of_lt hpos)
  rwa [hone] at hcut

theorem textAfter_brackets : textAfter (offsetOf cs close + 1) cs = .ok (cs.drop (close + 1)) := by
  obtain ⟨-, -, c, hget, hc⟩ := brackets_of_closeOf? h
  exact textAfter_offsetOf_succ hget hc

theorem textBefore_brackets :
    textBefore (offsetOf cs close + 1) cs = .ok (cs.take (close + 1)) := by
  obtain ⟨-, -, c, hget, hc⟩ := brackets_of_closeOf? h
  rw [← offsetOf_succ hget hc]
  exact textBefore_offsetOf cs (close + 1)

end Groups

/-! ## Pieces -/

/-- The text between the offsets, each of which takes one byte, and what is left after the last. -/
def cutAt (cs : List Char) : Nat → List Nat → Except Fault (List (List Char))
  | start, [] => do return [← textAfter start cs]
  | start, offset :: offsets => do
    return (← textBetween start offset cs) :: (← cutAt cs (offset + 1) offsets)

/-- The bytes of code that are `target` outside brackets. -/
def isTopLevel (target : Char) (m : Mark) : Bool := m.char == target && m.depth == 0

/-- The trimmed pieces of a text between the occurrences of `separator` outside brackets and string
literals, without the empty ones. -/
def topLevelPieces (separator : Char) (cs : List Char) : Except Fault (List (List Char)) := do
  let separators := (← codeBytes cs).filter (isTopLevel separator)
  return tidyPieces (← cutAt cs 0 (separators.map Mark.index))

/-- A text put before the first of some pieces. -/
def glue (front : List Char) : List (List Char) → List (List Char)
  | [] => [front]
  | piece :: pieces => (front ++ piece) :: pieces

theorem glue_glue (xs ys : List Char) (pieces : List (List Char)) :
    glue xs (glue ys pieces) = glue (xs ++ ys) pieces := by
  cases pieces <;> simp [glue]

theorem glue_nil {pieces : List (List Char)} (h : pieces ≠ []) : glue [] pieces = pieces := by
  cases pieces with
  | nil => exact absurd rfl h
  | cons piece pieces => rfl

theorem piecesFrom_cons (separator : Char) (s : Scan) (c : Char) (cs : List Char) :
    piecesFrom separator s (c :: cs) =
      if s.isCode c && c == separator && s.depth == 0 then
        [] :: piecesFrom separator (s.step c) cs
      else glue [c] (piecesFrom separator (s.step c) cs) := by
  rw [piecesFrom]
  cases piecesFrom separator (s.step c) cs <;> rfl

/-- Cutting at the separators from `place` on, with a piece begun at `start`. -/
theorem cutAt_eq {separator : Char} (hsep : separator.toNat < 128) (text : List Char)
    {start place : Nat} (hstart : start ≤ place) (s : Scan) :
    cutAt text (offsetOf text start)
        ((((marksFrom s place (text.drop place)).filter (isTopLevel separator)).map
          (moved text)).map Mark.index) =
      .ok (glue ((text.take place).drop start) (piecesFrom separator s (text.drop place))) := by
  induction hcs : text.drop place generalizing start place s with
  | nil =>
    have hall : text.take place = text := List.take_of_length_le (List.drop_eq_nil_iff.mp hcs)
    rw [marksFrom, hall]
    simp [cutAt, textAfter_offsetOf, piecesFrom, glue]
  | cons c cs ih =>
    have hget : text[place]? = some c := by rw [← List.head?_drop, hcs, List.head?_cons]
    have hnext : text.drop (place + 1) = cs := drop_succ hcs
    have htake : text.take (place + 1) = text.take place ++ [c] := by
      rw [List.take_add_one, hget]
      rfl
    have hlen : (text.take place).length = place := by
      rw [List.length_take]
      have := lt_length_of_drop hcs
      omega
    rw [piecesFrom_cons]
    cases hfound : s.isCode c && c == separator && s.depth == 0 with
    | true =>
      simp only [Bool.and_eq_true, beq_iff_eq] at hfound
      obtain ⟨⟨hcode, rfl⟩, hdepth⟩ := hfound
      have hmark : isTopLevel c ⟨place, c, s.depth⟩ = true := by simp [isTopLevel, hdepth]
      have hrest := ih (Nat.le_refl (place + 1)) (s.step c) hnext
      rw [List.drop_take_self, glue_nil (piecesFrom_ne_nil c _ cs)] at hrest
      rw [marksFrom, if_pos hcode, List.filter_cons_of_pos hmark, List.map_cons, List.map_cons,
        cutAt]
      simp only [moved]
      rw [textBetween_offsetOf text hstart, ok_bind, ← offsetOf_succ hget hsep, hrest]
      simp [glue]
    | false =>
      have hfilter : (marksFrom s place (c :: cs)).filter (isTopLevel separator) =
          (marksFrom (s.step c) (place + 1) cs).filter (isTopLevel separator) := by
        rw [marksFrom]
        split
        · rename_i hcode
          rw [hcode, Bool.true_and] at hfound
          exact List.filter_cons_of_neg (by simpa [isTopLevel] using hfound)
        · rfl
      rw [hfilter, ih (Nat.le_succ_of_le hstart) (s.step c) hnext, htake,
        List.drop_append_of_le_length (by omega), if_neg Bool.false_ne_true, glue_glue]

theorem toNat_of_isTopLevel {target : Char} (h : target.toNat < 128) (m : Mark)
    (hm : isTopLevel target m = true) : m.char.toNat < 128 := by
  rw [isTopLevel, Bool.and_eq_true, beq_iff_eq] at hm
  rw [hm.1]
  exact h

theorem topLevelPieces_eq {separator : Char} (hsep : separator.toNat < 128) (cs : List Char) :
    topLevelPieces separator cs = .ok (Signature.topLevelPieces separator cs) := by
  have hcut := cutAt_eq hsep cs (Nat.le_refl 0) Scan.initial
  rw [offsetOf_zero, List.take_zero, List.drop_nil, List.drop_zero,
    glue_nil (piecesFrom_ne_nil separator _ cs)] at hcut
  rw [topLevelPieces, codeBytes_eq, ok_bind, filter_bytes (toNat_of_isTopLevel hsep)]
  exact (congrArg (· >>= _) hcut).trans rfl

/-! ## Single places -/

/-- Whether the byte at an index is the character `c`. -/
def isAt (cs : List Char) (c : Char) (index : Nat) : Bool :=
  ((utf8 cs)[index]?.map Char.ofUInt8).any (· == c)

/-- The offset of the first `=` outside brackets and string literals that is not part of `=>`. -/
def initializerAt? (cs : List Char) : Except Fault (Option Nat) := do
  let found := (← codeBytes cs).find? fun m => isTopLevel '=' m && !isAt cs '>' (m.index + 1)
  return found.map Mark.index

/-- The offset of the last `target` outside brackets and string literals. -/
def lastTopLevel? (target : Char) (cs : List Char) : Except Fault (Option Nat) := do
  return ((← codeBytes cs).filter (isTopLevel target)).getLast?.map Mark.index

theorem lastTopLevel?_eq {target : Char} (htarget : target.toNat < 128) (cs : List Char) :
    lastTopLevel? target cs = .ok ((Signature.lastTopLevel? target cs).map (offsetOf cs)) := by
  rw [lastTopLevel?, codeBytes_eq, ok_bind, filter_bytes (toNat_of_isTopLevel htarget),
    List.getLast?_map, Signature.lastTopLevel?, Option.map_map, Option.map_map]
  rfl

theorem drop_utf8 (cs : List Char) (index : Nat) :
    (utf8 cs).drop (offsetOf cs index) = utf8 (cs.drop index) := by
  have hsplit : utf8 cs = utf8 (cs.take index) ++ utf8 (cs.drop index) := by
    rw [← utf8_append, List.take_append_drop]
  rw [hsplit, offsetOf, ← length_utf8, List.drop_left]

/-- The byte at the offset of a character is `c` if the character is. -/
theorem isAt_offsetOf {c : Char} (hc : c.toNat < 128) (cs : List Char) (index : Nat) :
    isAt cs c (offsetOf cs index) = cs[index]?.any (· == c) := by
  rw [isAt, ← List.head?_drop, drop_utf8, head?_utf8_any, List.head?_drop]
  intro d hd
  rw [beq_iff_eq] at hd
  rw [hd]
  exact hc

theorem initializerAt?_eq (cs : List Char) :
    initializerAt? cs = .ok ((Signature.initializerAt? cs).map (offsetOf cs)) := by
  have hascii : ∀ m : Mark, (isTopLevel '=' m && !isAt cs '>' (m.index + 1)) = true →
      m.char.toNat < 128 := fun m hm =>
    toNat_of_isTopLevel (by decide) m (Bool.and_eq_true_iff.mp hm).1
  have hsame : ∀ m ∈ marks cs,
      (isTopLevel '=' (moved cs m) && !isAt cs '>' ((moved cs m).index + 1)) =
        (m.char == '=' && m.depth == 0 && cs[m.index + 1]? != some '>') := by
    intro m hm
    show (isTopLevel '=' m && !isAt cs '>' (offsetOf cs m.index + 1)) = (isTopLevel '=' m && _)
    cases htop : isTopLevel '=' m with
    | false => rfl
    | true =>
      have hchar := toNat_of_isTopLevel (by decide) m htop
      rw [← offsetOf_succ (getElem?_of_mem_marks hm) hchar, isAt_offsetOf (by decide)]
      cases cs[m.index + 1]? <;> rfl
  rw [initializerAt?, codeBytes_eq, ok_bind, ← List.head?_filter, filter_bytes hascii,
    Signature.initializerAt?, ← List.head?_filter, List.filter_congr hsame, List.head?_map]
  simp only [Option.map_map, pure_eq_ok]
  rfl

/-! ## Names -/

/-- The name at the start of `cs` and what follows it without leading blanks, if there is a name. -/
def takeName? (cs : List Char) : Except Fault (Option (String × List Char)) := do
  let width := ((utf8 cs).takeWhile fun b => isNameChar (Char.ofUInt8 b)).length
  let name ← textBefore width cs
  if name.isEmpty then return none
  else return some (String.ofList name, trimStart (← textAfter (byteLen name) cs))

theorem isNameChar_of_wide {c : Char} (hc : 128 ≤ c.toNat) : isNameChar c = true := by
  simp [isNameChar, hc]

/-- The bytes of a name are the bytes of its characters: every byte beyond ASCII belongs to it. -/
theorem takeWhile_utf8 (cs : List Char) :
    (utf8 cs).takeWhile (fun b => isNameChar (Char.ofUInt8 b)) =
      utf8 (cs.takeWhile isNameChar) := by
  induction cs with
  | nil => rfl
  | cons c cs ih =>
    rw [utf8_cons]
    by_cases hc : c.toNat < 128
    · obtain ⟨b, hencode, rfl, -⟩ := utf8EncodeChar_of_ascii hc
      rw [hencode, List.singleton_append]
      rw [List.takeWhile_cons, List.takeWhile_cons, ih]
      cases isNameChar (Char.ofUInt8 b) with
      | true => exact (congrArg (· ++ _) hencode.symm).trans (utf8_cons _ _).symm
      | false => rfl
    · have hwide : ∀ b ∈ String.utf8EncodeChar c, isNameChar (Char.ofUInt8 b) = true := by
        intro b hb
        refine isNameChar_of_wide ?_
        rw [toNat_ofUInt8]
        exact isWide_utf8EncodeChar hc b hb
      rw [List.takeWhile_append_of_pos hwide, ih,
        List.takeWhile_cons_of_pos (isNameChar_of_wide (Nat.le_of_not_lt hc)), utf8_cons]

theorem takeName?_eq (cs : List Char) : takeName? cs = .ok (Signature.takeName? cs) := by
  have hsplit : cs.takeWhile isNameChar ++ cs.dropWhile isNameChar = cs :=
    List.takeWhile_append_dropWhile
  have hbefore := textBefore_append (cs.takeWhile isNameChar) (cs.dropWhile isNameChar)
  have hafter := textAfter_append (cs.takeWhile isNameChar) (cs.dropWhile isNameChar)
  rw [hsplit] at hbefore hafter
  rw [takeName?, Signature.takeName?, takeWhile_utf8, length_utf8]
  simp only [hbefore, ok_bind, hafter]
  cases cs.takeWhile isNameChar <;> rfl

end Assist.Offsets
