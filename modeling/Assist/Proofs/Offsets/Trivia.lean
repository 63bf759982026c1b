import Assist.Proofs.Offsets.Partial
import Assist.Text.Trivia

/-!
# Skipping trivia by offset

The loop that skips trivia reads the bytes of a file by index and carries its position. It never
reads past the end it was given (`skipTrivia_eq`).

The loop works on bytes, but where it stops is a boundary of the text whenever it starts at one and
has one for its end (`isBoundary_afterTrivia`): in a comment it may stand inside a character,
between two items it does not.
-/

namespace Assist.Offsets

open Assist.Text

/-! ## The loop -/

/-- The offset of the first byte at or after `pos` that is not trivia, from inside an item of the
given mode; `stop` if there is none before it. -/
def skipTriviaFrom (bs : List UInt8) (stop : Nat) (mode : TriviaMode) (pos : Nat) :
    Except Fault Nat :=
  match mode with
  | .between =>
    if pos < stop then do
      let b ← item bs pos
      if isTriviaBlank b then skipTriviaFrom bs stop .between (pos + 1)
      else if b = 0x2F ∧ pos + 1 < stop then
        let next ← item bs (pos + 1)
        if next = 0x2F then skipTriviaFrom bs stop .line (pos + 2)
        else if next = 0x2A then skipTriviaFrom bs stop .block (pos + 2)
        else return pos
      else return pos
    else return pos
  | .line =>
    if pos < stop then do
      let b ← item bs pos
      if b = 0x0A ∨ b = 0x0D then skipTriviaFrom bs stop .between pos
      else skipTriviaFrom bs stop .line (pos + 1)
    else return pos
  | .block =>
    if pos + 1 < stop then do
      let b ← item bs pos
      let next ← item bs (pos + 1)
      if b = 0x2A ∧ next = 0x2F then skipTriviaFrom bs stop .between (pos + 2)
      else skipTriviaFrom bs stop .block (pos + 1)
    else return stop
termination_by 2 * (stop - pos) + (if mode = .line then 1 else 0)
decreasing_by all_goals grind

/-- The offset of the first byte at or after `pos` that is not trivia, looking no further than
`stop` and the end of the file. -/
def skipTrivia (source : String) (pos stop : Offset) : Except Fault Offset := do
  let bs := utf8 source.toList
  return UInt32.ofNat (← skipTriviaFrom bs (min stop.toNat bs.length) .between pos.toNat)

/-! ## What is left after trivia -/

theorem dropTriviaFrom_nil (mode : TriviaMode) : dropTriviaFrom mode [] = [] := by
  cases mode <;> rfl

/-- One step between items. -/
theorem dropTriviaFrom_between (b : UInt8) (bs : List UInt8) :
    dropTriviaFrom .between (b :: bs) =
      if b = 0x2F ∧ bs.head? = some 0x2F then dropTriviaFrom .line bs.tail
      else if b = 0x2F ∧ bs.head? = some 0x2A then dropTriviaFrom .block bs.tail
      else if isTriviaBlank b then dropTriviaFrom .between bs
      else b :: bs := by
  by_cases hline : b = 0x2F ∧ bs.head? = some 0x2F
  · obtain ⟨rfl, hnext⟩ := hline
    obtain ⟨rest, rfl⟩ := List.head?_eq_some_iff.mp hnext
    rfl
  · by_cases hblock : b = 0x2F ∧ bs.head? = some 0x2A
    · obtain ⟨rfl, hnext⟩ := hblock
      obtain ⟨rest, rfl⟩ := List.head?_eq_some_iff.mp hnext
      rfl
    · rw [if_neg hline, if_neg hblock, dropTriviaFrom]
      · rintro rest rfl rfl
        exact hline ⟨rfl, rfl⟩
      · rintro rest rfl rfl
        exact hblock ⟨rfl, rfl⟩

/-- One step in a line comment. -/
theorem dropTriviaFrom_line (b : UInt8) (bs : List UInt8) :
    dropTriviaFrom .line (b :: bs) =
      if b = 0x0A ∨ b = 0x0D then dropTriviaFrom .between bs else dropTriviaFrom .line bs := by
  simp [dropTriviaFrom]

/-- One step in a block comment. -/
theorem dropTriviaFrom_block (b : UInt8) (bs : List UInt8) :
    dropTriviaFrom .block (b :: bs) =
      if b = 0x2A ∧ bs.head? = some 0x2F then dropTriviaFrom .between bs.tail
      else dropTriviaFrom .block bs := by
  by_cases hclose : b = 0x2A ∧ bs.head? = some 0x2F
  · obtain ⟨rfl, hnext⟩ := hclose
    obtain ⟨rest, rfl⟩ := List.head?_eq_some_iff.mp hnext
    rfl
  · rw [if_neg hclose, dropTriviaFrom]
    rintro rest rfl rfl
    exact hclose ⟨rfl, rfl⟩

theorem length_dropTriviaFrom_le (mode : TriviaMode) (bs : List UInt8) :
    (dropTriviaFrom mode bs).length ≤ bs.length := by
  fun_induction dropTriviaFrom mode bs <;> grind

/-- Before the end there is a byte to read, and it is the first of what is left. -/
theorem item_window {bs : List UInt8} {stop pos : Nat} (hstop : stop ≤ bs.length)
    (hpos : pos < stop) :
    ∃ b, item bs pos = .ok b ∧ (bs.take stop).drop pos = b :: (bs.take stop).drop (pos + 1) := by
  have hlt : pos < (bs.take stop).length := by
    rw [List.length_take]
    omega
  refine ⟨bs[pos], item_of_getElem? (List.getElem?_eq_getElem (by omega)), ?_⟩
  rw [List.drop_eq_getElem_cons hlt, List.getElem_take]

theorem window_eq_nil {bs : List UInt8} {stop pos : Nat} (hpos : stop ≤ pos) :
    (bs.take stop).drop pos = [] := by
  rw [List.drop_eq_nil_iff, List.length_take]
  omega

theorem length_window {bs : List UInt8} {stop : Nat} (hstop : stop ≤ bs.length) (pos : Nat) :
    ((bs.take stop).drop pos).length = stop - pos := by
  rw [List.length_drop, List.length_take, Nat.min_eq_left hstop]

theorem stop_sub_of_le {bs : List UInt8} {stop pos : Nat} (mode : TriviaMode) (hpos : pos ≤ stop)
    (hend : stop ≤ pos) : stop - (dropTriviaFrom mode ((bs.take stop).drop pos)).length = pos := by
  rw [window_eq_nil hend, dropTriviaFrom_nil, List.length_nil]
  omega

/-- The loop stops before what the trivia leave of the bytes up to its end. -/
theorem skipTriviaFrom_eq {bs : List UInt8} {stop : Nat} (hstop : stop ≤ bs.length)
    (mode : TriviaMode) {pos : Nat} (hpos : pos ≤ stop) :
    skipTriviaFrom bs stop mode pos =
      .ok (stop - (dropTriviaFrom mode ((bs.take stop).drop pos)).length) := by
  fun_induction skipTriviaFrom bs stop mode pos with
  | case1 pos hlt blank line block =>
    obtain ⟨b, hb, hwindow⟩ := item_window hstop hlt
    have hlen := length_window hstop pos
    rw [hwindow] at hlen
    rw [hb, ok_bind, hwindow, dropTriviaFrom_between]
    by_cases hblank : isTriviaBlank b = true
    · have hslash : b ≠ 0x2F := fun h => absurd hblank (by rw [h]; decide)
      rw [if_pos hblank, blank (by omega), if_neg fun h => hslash h.1, if_neg fun h => hslash h.1,
        if_pos hblank]
    · rw [if_neg hblank, if_neg hblank]
      by_cases hslash : b = 0x2F ∧ pos + 1 < stop
      · obtain ⟨next, hnext, hwindow'⟩ := item_window hstop hslash.2
        rw [if_pos hslash, hnext, ok_bind, hwindow', line b hslash (by omega),
          block b hslash (by omega)]
        by_cases hline : next = 0x2F
        · simp [hslash.1, hline]
        · by_cases hblock : next = 0x2A
          · simp [hslash.1, hblock]
          · rw [hwindow'] at hlen
            simp only [hline, hblock, if_false, List.head?_cons, Option.some.injEq, and_false, hlen,
              pure_eq_ok]
            congr 1
            omega
      · have hnone : ∀ x, ¬(b = 0x2F ∧ ((bs.take stop).drop (pos + 1)).head? = some x) := by
          rintro x ⟨rfl, hhead⟩
          have hle : stop ≤ pos + 1 := Nat.le_of_not_lt fun h => hslash ⟨rfl, h⟩
          rw [window_eq_nil hle] at hhead
          cases hhead
        rw [if_neg hslash, if_neg (hnone _), if_neg (hnone _), hlen, pure_eq_ok]
        congr 1
        omega
  | case2 pos hlt => rw [stop_sub_of_le .between hpos (by omega), pure_eq_ok]
  | case3 pos hlt between line =>
    obtain ⟨b, hb, hwindow⟩ := item_window hstop hlt
    rw [hb, ok_bind, hwindow, dropTriviaFrom_line]
    by_cases hend : b = 0x0A ∨ b = 0x0D
    · -- the line end is a blank, so it is skipped once more between items
      have hblank : isTriviaBlank b = true ∧ b ≠ 0x2F := by
        obtain rfl | rfl := hend <;> decide
      rw [if_pos hend, if_pos hend, between hpos, hwindow, dropTriviaFrom_between]
      simp [hblank]
    · rw [if_neg hend, if_neg hend, line (by omega)]
  | case4 pos hlt => rw [stop_sub_of_le .line hpos (by omega), pure_eq_ok]
  | case5 pos hlt between block =>
    obtain ⟨b, hb, hwindow⟩ := item_window hstop (by omega : pos < stop)
    obtain ⟨next, hnext, hwindow'⟩ := item_window hstop hlt
    rw [hb, ok_bind, hnext, ok_bind, hwindow, dropTriviaFrom_block, between (by omega),
      block (by omega), hwindow']
    by_cases hclose : b = 0x2A ∧ next = 0x2F
    · simp [hclose]
    · simp [hclose]
  | case6 pos hlt =>
    have hnil : dropTriviaFrom .block ((bs.take stop).drop pos) = [] := by
      cases hwindow : (bs.take stop).drop pos with
      | nil => rfl
      | cons b rest =>
        have hlen := length_window hstop pos
        rw [hwindow, List.length_cons] at hlen
        have hrest : rest = [] := List.eq_nil_of_length_eq_zero (by omega)
        rw [hrest, dropTriviaFrom_block, if_neg fun h => nomatch h.2]
        rfl
    rw [hnil, List.length_nil, Nat.sub_zero, pure_eq_ok]

/-- Skipping trivia meets no fault, whatever the offsets. -/
theorem skipTrivia_eq (source : String) (pos stop : Offset) :
    skipTrivia source pos stop = .ok (afterTrivia source pos stop) := by
  rw [skipTrivia, afterTrivia, dropTrivia, window]
  generalize utf8 source.toList = bs
  have hwindow : (bs.drop pos.toNat).take (stop.toNat - pos.toNat) =
      (bs.take (min stop.toNat bs.length)).drop pos.toNat := by
    rw [List.drop_take, List.take_eq_take_iff, List.length_drop]
    omega
  have hstop : min stop.toNat bs.length ≤ bs.length := Nat.min_le_right _ _
  rw [hwindow]
  by_cases hpos : pos.toNat ≤ min stop.toNat bs.length
  · have hlen := length_window hstop pos.toNat
    have hleft := length_dropTriviaFrom_le .between
      ((bs.take (min stop.toNat bs.length)).drop pos.toNat)
    rw [skipTriviaFrom_eq hstop .between hpos, ok_bind, pure_eq_ok]
    congr 2
    omega
  · rw [window_eq_nil (by omega), dropTriviaFrom_nil, skipTriviaFrom, if_neg (by omega)]
    rfl

/-! ## Where trivia end -/

/-- The bytes are those of an end of the text. -/
def IsEndOf (cs : List Char) (bs : List UInt8) : Prop := ∃ rest, rest <:+ cs ∧ bs = utf8 rest

/-- The bytes are those of an end of the text, perhaps after the last bytes of a character. -/
def IsLeftOf (cs : List Char) (bs : List UInt8) : Prop :=
  ∃ wide rest, IsWide wide ∧ rest <:+ cs ∧ bs = wide ++ utf8 rest

section Ends

variable {cs : List Char} {b : UInt8} {bs : List UInt8}

theorem IsEndOf.isLeftOf (h : IsEndOf cs bs) : IsLeftOf cs bs := by
  obtain ⟨rest, hrest, hbs⟩ := h
  exact ⟨[], rest, fun _ hmem => absurd hmem List.not_mem_nil, hrest, hbs⟩

/-- One byte less of a text: it was a character, or a part of one. -/
theorem IsLeftOf.tail_cases (h : IsLeftOf cs (b :: bs)) :
    (b.toNat < 128 ∧ IsEndOf cs bs) ∨ (128 ≤ b.toNat ∧ IsLeftOf cs bs) := by
  obtain ⟨wide, rest, hwide, hrest, hbs⟩ := h
  cases wide with
  | cons x wide =>
    obtain ⟨rfl, rfl⟩ := List.cons.inj hbs
    exact Or.inr ⟨hwide b List.mem_cons_self, wide, rest,
      fun y hy => hwide y (List.mem_cons_of_mem b hy), hrest, rfl⟩
  | nil =>
    cases rest with
    | nil => cases hbs
    | cons c rest =>
      have hend : rest <:+ cs := (List.suffix_cons c rest).trans hrest
      rw [List.nil_append, utf8_cons] at hbs
      obtain ⟨x, wide, hencode, hrestwide⟩ := exists_utf8EncodeChar_cons c
      rw [hencode] at hbs
      obtain ⟨rfl, rfl⟩ := List.cons.inj hbs
      by_cases hc : c.toNat < 128
      · obtain ⟨x, hone, -, hx⟩ := utf8EncodeChar_of_ascii hc
        rw [hone] at hencode
        obtain ⟨rfl, rfl⟩ := List.cons.inj hencode
        exact Or.inl ⟨by omega, rest, hend, rfl⟩
      · have hfirst := isWide_utf8EncodeChar hc b (by rw [hencode]; exact List.mem_cons_self)
        exact Or.inr ⟨hfirst, wide, rest, hrestwide, hend, rfl⟩

theorem IsLeftOf.tail (h : IsLeftOf cs (b :: bs)) : IsLeftOf cs bs := by
  obtain ⟨-, hend⟩ | ⟨-, hleft⟩ := h.tail_cases
  · exact hend.isLeftOf
  · exact hleft

theorem IsLeftOf.isEndOf_tail (h : IsLeftOf cs (b :: bs)) (hb : b.toNat < 128) : IsEndOf cs bs := by
  obtain ⟨-, hend⟩ | ⟨hwide, -⟩ := h.tail_cases
  · exact hend
  · omega

theorem toNat_of_isTriviaBlank (h : isTriviaBlank b = true) : b.toNat < 128 := by
  simp only [isTriviaBlank, Bool.or_eq_true, beq_iff_eq] at h
  rcases h with ((((rfl | rfl) | rfl) | rfl) | rfl) | rfl <;> decide

/-- Trivia end between two characters: only inside a comment can a scan stand in a character. -/
theorem IsEndOf.dropTriviaFrom (mode : TriviaMode) (hleft : IsLeftOf cs bs)
    (hbetween : mode = .between → IsEndOf cs bs) : IsEndOf cs (dropTriviaFrom mode bs) := by
  fun_induction Text.dropTriviaFrom mode bs with
  | case1 mode => exact ⟨[], List.nil_suffix, rfl⟩
  | case2 bs ih => exact ih hleft.tail.tail nofun
  | case3 bs ih => exact ih hleft.tail.tail nofun
  | case4 b bs _ _ hblank ih =>
    have hend := hleft.isEndOf_tail (toNat_of_isTriviaBlank hblank)
    exact ih hend.isLeftOf fun _ => hend
  | case5 b bs _ _ hblank => exact hbetween rfl
  | case6 b bs hline ih =>
    have hb : b.toNat < 128 := by
      rw [Bool.or_eq_true, beq_iff_eq, beq_iff_eq] at hline
      obtain rfl | rfl := hline <;> decide
    exact ih hleft.tail fun _ => hleft.isEndOf_tail hb
  | case7 b bs hline ih => exact ih hleft.tail nofun
  | case8 bs ih => exact ih hleft.tail.tail fun _ => hleft.tail.isEndOf_tail (by decide)
  | case9 b bs _ ih => exact ih hleft.tail nofun

end Ends

/-- The bytes from the end of one part of a text to the end of the next are those of that part. -/
theorem window_append (before middle after : List Char) :
    window (byteLen before) (byteLen before + byteLen middle) (utf8 (before ++ middle ++ after)) =
      utf8 middle := by
  rw [window, Nat.add_sub_cancel_left, utf8_append, utf8_append, List.append_assoc,
    ← length_utf8 before, List.drop_left, ← length_utf8 middle, List.take_left]

/-- The bytes of a range do not change when the range is moved into the file. -/
theorem window_clamp (pos stop : Nat) (bs : List UInt8) :
    window (min pos bs.length) (max (min pos bs.length) (min stop bs.length)) bs =
      window pos stop bs := by
  unfold window
  rcases Nat.le_total pos bs.length with hpos | hpos
  · rw [Nat.min_eq_left hpos, List.take_eq_take_iff, List.length_drop]
    omega
  · rw [Nat.min_eq_right hpos, List.drop_length, List.drop_of_length_le hpos, List.take_nil,
      List.take_nil]

/-- The offset after trivia is an offset, so it is the sum it stands for. -/
theorem toNat_afterTrivia (source : String) (pos stop : Offset) :
    (afterTrivia source pos stop).toNat =
      pos.toNat + ((window pos.toNat stop.toNat (utf8 source.toList)).length -
        (dropTrivia (window pos.toNat stop.toNat (utf8 source.toList))).length) := by
  have hlen : (window pos.toNat stop.toNat (utf8 source.toList)).length ≤ stop.toNat - pos.toNat :=
    List.length_take_le _ _
  have hpos := pos.toNat_lt
  have hstop := stop.toNat_lt
  exact UInt32.toNat_ofNat_of_lt' (show _ < 2 ^ 32 by omega)

theorem le_afterTrivia (source : String) (pos stop : Offset) :
    pos ≤ afterTrivia source pos stop := by
  rw [UInt32.le_iff_toNat_le, toNat_afterTrivia]
  exact Nat.le_add_right _ _

/-- Trivia do not reach past the end of what is looked at. -/
theorem afterTrivia_le (source : String) {pos stop : Offset} (h : pos ≤ stop) :
    afterTrivia source pos stop ≤ stop := by
  have hlen : (window pos.toNat stop.toNat (utf8 source.toList)).length ≤ stop.toNat - pos.toNat :=
    List.length_take_le _ _
  rw [UInt32.le_iff_toNat_le] at h ⊢
  rw [toNat_afterTrivia]
  omega

/-- Trivia between two boundaries of a text end at a boundary. -/
theorem isBoundary_afterTrivia {source : String} {pos stop : Offset}
    (hpos : isBoundary pos.toNat source.toList = true)
    (hstop : isBoundary stop.toNat source.toList = true) :
    isBoundary (afterTrivia source pos stop).toNat source.toList = true := by
  rw [toNat_afterTrivia]
  by_cases hle : stop.toNat ≤ pos.toNat
  · rw [window, Nat.sub_eq_zero_of_le hle, List.take_zero]
    exact hpos
  · -- the bytes that are looked at are those of a part of the text
    obtain ⟨before, middle, after, htext, hbefore, hmiddle⟩ :=
      exists_middle hpos hstop (Nat.le_of_not_le hle)
    have hwindow : window pos.toNat stop.toNat (utf8 source.toList) = utf8 middle := by
      have hstop : stop.toNat = byteLen before + byteLen middle := by omega
      rw [htext, ← hbefore, hstop, window_append]
    have hall : IsEndOf middle (utf8 middle) := ⟨middle, List.suffix_refl middle, rfl⟩
    obtain ⟨left, ⟨skipped, rfl⟩, hleft⟩ :=
      IsEndOf.dropTriviaFrom .between hall.isLeftOf fun _ => hall
    refine isBoundary_iff.mpr ⟨before ++ skipped, left ++ after, ?_, ?_⟩
    · rw [htext]
      simp
    · rw [hwindow, dropTrivia, hleft, length_utf8, length_utf8, byteLen_append, byteLen_append]
      omega

end Assist.Offsets
