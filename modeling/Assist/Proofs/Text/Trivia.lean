import Assist.Proofs.Offsets.Trivia
import Mathlib.Logic.Relation

/-!
# The grammar of trivia

An item of trivia is an ASCII blank, a line comment up to the end of its line, or a block comment up
to its first close; a comment that does not end runs to where the bytes are no longer looked at
(`TriviaItem`). The trivia at an offset are all the items from there on (`TriviaEnd`).

The scan takes its items one after the other, and inside a comment it has read a part of one that
does not end yet (`InItem`). So whatever the bytes are, it takes exactly the trivia at the offset
where it begins (`exists_triviaEnd`, `afterTrivia_exact`): no item is left where it stops, and to
begin there again takes nothing more.
-/

namespace Assist.Text

/-! ## Items -/

/-- Two bytes stand one behind the other at an offset, before `stop`. -/
structure PairAt (bs : List UInt8) (stop : Nat) (first second : UInt8) (offset : Nat) : Prop where
  before_stop : offset + 1 < stop
  first_eq : bs[offset]? = some first
  second_eq : bs[offset + 1]? = some second

/-- A line ends at an offset. -/
def LineEndAt (bs : List UInt8) (offset : Nat) : Prop :=
  bs[offset]? = some 0x0A ∨ bs[offset]? = some 0x0D

/-- An item of trivia stands from an offset up to another one, where no byte is looked at from
`stop` on. -/
inductive TriviaItem (bs : List UInt8) (stop : Nat) : Nat → Nat → Prop where
  /-- A space, a tab, a line end, a vertical tab or a form feed. -/
  | blank {start : Nat} {b : UInt8} (hstart : start < stop) (hbyte : bs[start]? = some b)
      (hblank : b ∈ [0x20, 0x09, 0x0D, 0x0A, 0x0B, 0x0C]) : TriviaItem bs stop start (start + 1)
  /-- Two slashes and what follows them on the line, without the end of the line. -/
  | line {start next : Nat} (hopens : PairAt bs stop 0x2F 0x2F start) (hstart : start + 2 ≤ next)
      (hnext : next ≤ stop)
      (hline : ∀ offset, start + 2 ≤ offset → offset < next → ¬LineEndAt bs offset)
      (hends : next = stop ∨ LineEndAt bs next) : TriviaItem bs stop start next
  /-- A slash, an asterisk and what follows them up to the first asterisk before a slash. -/
  | block {start close : Nat} (hopens : PairAt bs stop 0x2F 0x2A start) (hstart : start + 2 ≤ close)
      (hcloses : PairAt bs stop 0x2A 0x2F close)
      (hfirst : ∀ offset, start + 2 ≤ offset → offset < close → ¬PairAt bs stop 0x2A 0x2F offset) :
      TriviaItem bs stop start (close + 2)
  /-- A slash, an asterisk and all that follows them, if that has no asterisk before a slash. -/
  | openBlock {start : Nat} (hopens : PairAt bs stop 0x2F 0x2A start)
      (hnone : ∀ offset, start + 2 ≤ offset → ¬PairAt bs stop 0x2A 0x2F offset) :
      TriviaItem bs stop start stop

/-- The trivia at `pos` end at `place`: they are a sequence of items, and no item stands at
`place`. -/
structure TriviaEnd (bs : List UInt8) (stop pos place : Nat) : Prop where
  le : pos ≤ place
  le_stop : place ≤ max pos stop
  items : Relation.ReflTransGen (TriviaItem bs stop) pos place
  none_left : ∀ next, ¬TriviaItem bs stop place next

section Items

variable {bs : List UInt8} {stop start next pos place : Nat} {b : UInt8}

theorem isTriviaBlank_iff : isTriviaBlank b = true ↔ b ∈ [0x20, 0x09, 0x0D, 0x0A, 0x0B, 0x0C] := by
  simp only [isTriviaBlank, Bool.or_eq_true, beq_iff_eq, List.mem_cons, List.not_mem_nil, or_false,
    or_assoc]

theorem TriviaItem.bounds (h : TriviaItem bs stop start next) : start < next ∧ next ≤ stop := by
  cases h with
  | blank hstart => omega
  | line hopens hstart hnext => omega
  | block hopens hstart hcloses =>
    have := hcloses.before_stop
    omega
  | openBlock hopens =>
    have := hopens.before_stop
    omega

/-- An item starts with a blank or with a slash before another slash or an asterisk. -/
theorem TriviaItem.starts (h : TriviaItem bs stop start next) :
    start < stop ∧ ∃ b, bs[start]? = some b ∧ (isTriviaBlank b = true ∨
      b = 0x2F ∧ start + 1 < stop ∧
        (bs[start + 1]? = some 0x2F ∨ bs[start + 1]? = some 0x2A)) := by
  have hslash : ∀ {second}, second = 0x2F ∨ second = 0x2A → PairAt bs stop 0x2F second start →
      start < stop ∧ ∃ b, bs[start]? = some b ∧ (isTriviaBlank b = true ∨
        b = 0x2F ∧ start + 1 < stop ∧
          (bs[start + 1]? = some 0x2F ∨ bs[start + 1]? = some 0x2A)) := by
    rintro second hsecond ⟨hbefore, hfirst, hnext⟩
    refine ⟨by omega, 0x2F, hfirst, Or.inr ⟨rfl, hbefore, ?_⟩⟩
    rcases hsecond with rfl | rfl
    · exact Or.inl hnext
    · exact Or.inr hnext
  cases h with
  | blank hstart hbyte hblank => exact ⟨hstart, _, hbyte, Or.inl (isTriviaBlank_iff.mpr hblank)⟩
  | line hopens => exact hslash (Or.inl rfl) hopens
  | block hopens => exact hslash (Or.inr rfl) hopens
  | openBlock hopens => exact hslash (Or.inr rfl) hopens

/-- Where nothing is looked at, trivia end. -/
theorem TriviaEnd.of_stop_le (h : stop ≤ pos) : TriviaEnd bs stop pos pos :=
  ⟨Nat.le_refl _, Nat.le_max_left _ _, .refl, fun _ hitem => absurd hitem.starts.1 (by omega)⟩

/-- Trivia end at a byte that does not start an item. -/
theorem TriviaEnd.of_not_starts (hget : bs[pos]? = some b) (hblank : ¬isTriviaBlank b = true)
    (hopens : ¬(b = 0x2F ∧ pos + 1 < stop ∧
      (bs[pos + 1]? = some 0x2F ∨ bs[pos + 1]? = some 0x2A))) : TriviaEnd bs stop pos pos := by
  refine ⟨Nat.le_refl _, Nat.le_max_left _ _, .refl, fun next hitem => ?_⟩
  obtain ⟨-, c, hc, hstarts⟩ := hitem.starts
  rw [hget, Option.some.injEq] at hc
  subst hc
  exact hstarts.elim hblank hopens

/-- An item in front of trivia makes longer trivia. -/
theorem TriviaEnd.cons (hitem : TriviaItem bs stop start next)
    (h : TriviaEnd bs stop next place) : TriviaEnd bs stop start place := by
  obtain ⟨hlt, hstop⟩ := hitem.bounds
  have hle := h.le
  have hplace := h.le_stop
  exact ⟨by omega, by omega, .head hitem h.items, h.none_left⟩

/-- Trivia do not go on where trivia end. -/
theorem TriviaEnd.eq_of_triviaEnd (h : TriviaEnd bs stop pos start)
    (hagain : TriviaEnd bs stop start place) : place = start := by
  rcases hagain.items.cases_head with hsame | ⟨next, hitem, -⟩
  · exact hsame.symm
  · exact absurd hitem (h.none_left next)

end Items

/-! ## The scan -/

/-- The scan is at `pos` and in an item that began at `start`: in a comment whose end it has not
seen, or between two items. -/
inductive InItem (bs : List UInt8) (stop : Nat) : TriviaMode → Nat → Nat → Prop where
  | between {pos : Nat} : InItem bs stop .between pos pos
  | line {start pos : Nat} (hopens : PairAt bs stop 0x2F 0x2F start) (hstart : start + 2 ≤ pos)
      (hpos : pos ≤ stop)
      (hline : ∀ offset, start + 2 ≤ offset → offset < pos → ¬LineEndAt bs offset) :
      InItem bs stop .line start pos
  | block {start pos : Nat} (hopens : PairAt bs stop 0x2F 0x2A start) (hstart : start + 2 ≤ pos)
      (hpos : pos ≤ stop)
      (hopen : ∀ offset, start + 2 ≤ offset → offset < pos → ¬PairAt bs stop 0x2A 0x2F offset) :
      InItem bs stop .block start pos

namespace InItem

variable {bs : List UInt8} {stop start pos : Nat}

theorem line_of_opens (hopens : PairAt bs stop 0x2F 0x2F start) :
    InItem bs stop .line start (start + 2) :=
  .line hopens (Nat.le_refl _) hopens.before_stop fun _ hle hlt => absurd hle (Nat.not_le.mpr hlt)

theorem block_of_opens (hopens : PairAt bs stop 0x2F 0x2A start) :
    InItem bs stop .block start (start + 2) :=
  .block hopens (Nat.le_refl _) hopens.before_stop fun _ hle hlt => absurd hle (Nat.not_le.mpr hlt)

/-- What ends a comment is not in the part that was read, and not at the next byte either. -/
theorem not_of_lt_succ {P : Nat → Prop}
    (hread : ∀ offset, start + 2 ≤ offset → offset < pos → ¬P offset) (hpos : ¬P pos) :
    ∀ offset, start + 2 ≤ offset → offset < pos + 1 → ¬P offset := by
  intro offset hle hlt
  rcases Nat.lt_succ_iff_lt_or_eq.mp hlt with hlt | rfl
  · exact hread offset hle hlt
  · exact hpos

/-- A line comment goes on behind a byte that does not end the line. -/
theorem line_succ (h : InItem bs stop .line start pos) (hlt : pos < stop)
    (hbyte : ¬LineEndAt bs pos) : InItem bs stop .line start (pos + 1) := by
  obtain - | ⟨hopens, hstart, hpos, hline⟩ := h
  exact .line hopens (by omega) hlt (not_of_lt_succ hline hbyte)

/-- A block comment goes on behind a byte at which it is not closed. -/
theorem block_succ (h : InItem bs stop .block start pos) (hlt : pos < stop)
    (hbyte : ¬PairAt bs stop 0x2A 0x2F pos) : InItem bs stop .block start (pos + 1) := by
  obtain - | - | ⟨hopens, hstart, hpos, hopen⟩ := h
  exact .block hopens (by omega) hlt (not_of_lt_succ hopen hbyte)

/-- A line comment is over at the end of its line and where nothing is looked at. -/
theorem item_of_line (h : InItem bs stop .line start pos) (hends : stop ≤ pos ∨ LineEndAt bs pos) :
    TriviaItem bs stop start pos := by
  obtain - | ⟨hopens, hstart, hpos, hline⟩ := h
  exact .line hopens hstart hpos hline (hends.imp_left (Nat.le_antisymm hpos))

theorem item_of_closes (h : InItem bs stop .block start pos)
    (hcloses : PairAt bs stop 0x2A 0x2F pos) : TriviaItem bs stop start (pos + 2) := by
  obtain - | - | ⟨hopens, hstart, -, hopen⟩ := h
  exact .block hopens hstart hcloses hopen

/-- A block comment is over where no two bytes are left to close it with. -/
theorem item_of_open (h : InItem bs stop .block start pos) (hend : stop ≤ pos + 1) :
    TriviaItem bs stop start stop := by
  obtain - | - | ⟨hopens, hstart, -, hopen⟩ := h
  refine .openBlock hopens fun offset hle hclose => ?_
  have := hclose.before_stop
  exact hopen offset hle (by omega) hclose

end InItem

section Scan

open Offsets (item item_of_getElem? ok_bind pure_eq_ok skipTriviaFrom)

variable {bs : List UInt8} {stop start pos : Nat}

/-- Before the end there is a byte to read. -/
theorem exists_item (hstop : stop ≤ bs.length) (hpos : pos < stop) :
    ∃ b, bs[pos]? = some b ∧ item bs pos = .ok b := by
  have hget : bs[pos]? = some bs[pos] := List.getElem?_eq_getElem (by omega)
  exact ⟨bs[pos], hget, item_of_getElem? hget⟩

/-- **The scan takes trivia.** From inside an item that began at `start`, the scan stops where the
trivia at `start` end. -/
theorem exists_triviaEnd (hstop : stop ≤ bs.length) {mode : TriviaMode}
    (h : InItem bs stop mode start pos) :
    ∃ place, skipTriviaFrom bs stop mode pos = .ok place ∧ TriviaEnd bs stop start place := by
  fun_induction skipTriviaFrom bs stop mode pos generalizing start with
  | case1 pos hlt blank line block =>
    cases h
    obtain ⟨b, hget, hb⟩ := exists_item hstop hlt
    rw [hb, ok_bind]
    by_cases hblank : isTriviaBlank b = true
    · obtain ⟨place, hplace, hend⟩ := blank .between
      rw [if_pos hblank]
      exact ⟨place, hplace, hend.cons (.blank hlt hget (isTriviaBlank_iff.mp hblank))⟩
    · rw [if_neg hblank]
      by_cases hslash : b = 0x2F ∧ pos + 1 < stop
      · obtain ⟨next, hget', hnext⟩ := exists_item hstop hslash.2
        rw [if_pos hslash, hnext, ok_bind]
        obtain ⟨rfl, hlt'⟩ := hslash
        by_cases hline : next = 0x2F
        · rw [if_pos hline]
          exact line _ ⟨rfl, hlt'⟩ (.line_of_opens ⟨hlt', hget, hline ▸ hget'⟩)
        · rw [if_neg hline]
          by_cases hblock : next = 0x2A
          · rw [if_pos hblock]
            exact block _ ⟨rfl, hlt'⟩ (.block_of_opens ⟨hlt', hget, hblock ▸ hget'⟩)
          · rw [if_neg hblock]
            refine ⟨pos, pure_eq_ok pos, .of_not_starts hget hblank fun hopens => ?_⟩
            rw [hget', Option.some.injEq, Option.some.injEq] at hopens
            exact hopens.2.2.elim hline hblock
      · rw [if_neg hslash]
        exact ⟨pos, pure_eq_ok pos,
          .of_not_starts hget hblank fun hopens => hslash ⟨hopens.1, hopens.2.1⟩⟩
  | case2 pos hlt =>
    cases h
    exact ⟨pos, pure_eq_ok pos, .of_stop_le (Nat.le_of_not_lt hlt)⟩
  | case3 pos hlt between line =>
    obtain ⟨b, hget, hb⟩ := exists_item hstop hlt
    have hends : b = 0x0A ∨ b = 0x0D ↔ LineEndAt bs pos := by
      rw [LineEndAt, hget, Option.some.injEq, Option.some.injEq]
    rw [hb, ok_bind]
    by_cases hend : b = 0x0A ∨ b = 0x0D
    · obtain ⟨place, hplace, hrest⟩ := between .between
      rw [if_pos hend]
      exact ⟨place, hplace, hrest.cons (h.item_of_line (Or.inr (hends.mp hend)))⟩
    · rw [if_neg hend]
      exact line (h.line_succ hlt (hends.not.mp hend))
  | case4 pos hlt =>
    have hle := Nat.le_of_not_lt hlt
    exact ⟨pos, pure_eq_ok pos, .cons (h.item_of_line (Or.inl hle)) (.of_stop_le hle)⟩
  | case5 pos hlt between block =>
    obtain ⟨b, hget, hb⟩ := exists_item hstop (by omega : pos < stop)
    obtain ⟨next, hget', hnext⟩ := exists_item hstop hlt
    rw [hb, ok_bind, hnext, ok_bind]
    by_cases hcloses : b = 0x2A ∧ next = 0x2F
    · have hclose : PairAt bs stop 0x2A 0x2F pos := ⟨hlt, hcloses.1 ▸ hget, hcloses.2 ▸ hget'⟩
      obtain ⟨place, hplace, hrest⟩ := between .between
      rw [if_pos hcloses]
      exact ⟨place, hplace, hrest.cons (h.item_of_closes hclose)⟩
    · rw [if_neg hcloses]
      refine block (h.block_succ (by omega) fun hclose => hcloses ⟨?_, ?_⟩)
      · exact Option.some.inj (hget.symm.trans hclose.first_eq)
      · exact Option.some.inj (hget'.symm.trans hclose.second_eq)
  | case6 pos hlt =>
    exact ⟨stop, pure_eq_ok stop,
      .cons (h.item_of_open (Nat.le_of_not_lt hlt)) (.of_stop_le (Nat.le_refl _))⟩

end Scan

/-! ## The trivia of a file -/

/-- The bytes of a file up to an offset or its end are those up to the nearer of the two. -/
theorem afterTrivia_limit (source : String) (pos stop : Offset) :
    afterTrivia source pos stop =
      afterTrivia source pos (UInt32.ofNat (min stop.toNat (utf8 source.toList).length)) := by
  have hlimit : (UInt32.ofNat (min stop.toNat (utf8 source.toList).length)).toNat =
      min stop.toNat (utf8 source.toList).length := by
    have hstop := stop.toNat_lt
    exact UInt32.toNat_ofNat_of_lt' (show _ < 2 ^ 32 by omega)
  have hwindow : window pos.toNat stop.toNat (utf8 source.toList) =
      window pos.toNat (min stop.toNat (utf8 source.toList).length) (utf8 source.toList) := by
    rw [window, window, List.take_eq_take_iff, List.length_drop]
    omega
  rw [afterTrivia, afterTrivia, hlimit, hwindow]

theorem triviaEnd_afterTrivia (source : String) (pos stop : Offset) :
    TriviaEnd (utf8 source.toList) (min stop.toNat (utf8 source.toList).length) pos.toNat
      (afterTrivia source pos stop).toNat := by
  have hbetween : InItem (utf8 source.toList) (min stop.toNat (utf8 source.toList).length) .between
      pos.toNat pos.toNat := .between
  obtain ⟨place, hplace, hend⟩ := exists_triviaEnd (Nat.min_le_right _ _) hbetween
  have hscan := Offsets.skipTrivia_eq source pos stop
  rw [Offsets.skipTrivia, hplace, Offsets.ok_bind, Offsets.pure_eq_ok, Except.ok.injEq] at hscan
  have hlt : place < 2 ^ 32 := by
    have hpos := pos.toNat_lt
    have hstop := stop.toNat_lt
    have := hend.le_stop
    omega
  rw [← hscan, UInt32.toNat_ofNat_of_lt' hlt]
  exact hend

/-- **Exactly the trivia.** Whatever the text and the offsets, what is skipped from `pos` on is a
sequence of items of trivia and no item is left; nothing more is skipped from there; and between
boundaries of the text it ends at a boundary. -/
theorem afterTrivia_exact (source : String) (pos stop : Offset) :
    TriviaEnd (utf8 source.toList) (min stop.toNat (utf8 source.toList).length) pos.toNat
        (afterTrivia source pos stop).toNat ∧
      afterTrivia source (afterTrivia source pos stop) stop = afterTrivia source pos stop ∧
      (isBoundary pos.toNat source.toList = true →
        isBoundary (min stop.toNat (utf8 source.toList).length) source.toList = true →
        isBoundary (afterTrivia source pos stop).toNat source.toList = true) := by
  have hend := triviaEnd_afterTrivia source pos stop
  refine ⟨hend, ?_, fun hpos hlimit => ?_⟩
  · exact UInt32.toNat_inj.mp (hend.eq_of_triviaEnd (triviaEnd_afterTrivia source _ stop))
  · rw [afterTrivia_limit]
    refine Offsets.isBoundary_afterTrivia hpos ?_
    have hstop := stop.toNat_lt
    rwa [UInt32.toNat_ofNat_of_lt' (show _ < 2 ^ 32 by omega)]

/-- A comment that opens with `/*/` and is closed across the end of what is looked at: it is taken
whole, and the end behind its last full character is a boundary. -/
theorem afterTrivia_exact_straddling :
    isBoundary 1 "x /*/é*/ y".toList = true ∧ isBoundary 8 "x /*/é*/ y".toList = true ∧
      TriviaEnd (utf8 "x /*/é*/ y".toList) 8 1 8 ∧ afterTrivia "x /*/é*/ y" 8 8 = 8 ∧
      TriviaEnd (utf8 "x /*/é*/ y".toList) 11 1 10 := by
  have hlimit : min (8 : Offset).toNat (utf8 "x /*/é*/ y".toList).length = 8 := by decide +kernel
  have hwhole : min (11 : Offset).toNat (utf8 "x /*/é*/ y".toList).length = 11 := by decide +kernel
  have hplace : afterTrivia "x /*/é*/ y" 1 8 = 8 := by decide +kernel
  have hclosed : afterTrivia "x /*/é*/ y" 1 11 = 10 := by decide +kernel
  have hstart : isBoundary 1 "x /*/é*/ y".toList = true := by decide +kernel
  have hstop : isBoundary 8 "x /*/é*/ y".toList = true := by decide +kernel
  obtain ⟨hend, hagain, hbound⟩ := afterTrivia_exact "x /*/é*/ y" 1 8
  obtain ⟨hfull, -, -⟩ := afterTrivia_exact "x /*/é*/ y" 1 11
  rw [hlimit, hplace] at hend hbound
  rw [hplace] at hagain
  rw [hwhole, hclosed] at hfull
  exact ⟨hstart, hbound hstart hstop, hend, hagain, hfull⟩

end Assist.Text
