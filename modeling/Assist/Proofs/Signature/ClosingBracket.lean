import Assist.Proofs.Signature.TopLevel
import Assist.Proofs.Text.Cut
import Mathlib.Order.Bounds.Basic

/-!
# Where a bracket is closed

Counted from a bracket on, the number of open brackets comes back to zero for the first time at the
bracket that closes it (`FirstReturn`), which is the least of all offsets with that property
(`isLeast_returnsFrom`). The search for the closing bracket counts with the scan, but it asks on its
own whether the character there closes, and takes for the character before it the last one of code.
A string literal between `=` and `>` thus makes the two disagree: the scan closes a bracket at the
`>`, and the search takes `=` and `>` for an arrow. `closingBracket?_isLeast_iff` says that the
search finds the first return exactly if it is not of this kind (`HidesClose`), on every text. A
default type that is a string literal is of this kind, and the search goes on to some other bracket
or finds none (`angle_behind_literal_missed`).
-/

namespace Assist.Signature

open Assist.Text

/-! ## Steps down -/

/-- A scan gets less deep only by a character of code that closes a bracket, and then by one. -/
theorem Scan.step_cases (s : Scan) (c : Char) :
    s.depth ≤ (s.step c).depth ∨
      (s.isCode c = true ∧ closes s.prev c = true ∧ (s.step c).depth = s.depth - 1) := by
  unfold Scan.step
  cases hregion : s.region with
  | code =>
    cases hquote : isQuote c with
    | true => exact Or.inl (Int.le_refl _)
    | false =>
      simp only [Bool.false_eq_true, if_false, Scan.depthAfter]
      split
      · exact Or.inl (by omega)
      · split
        · rename_i hcloses
          exact Or.inr ⟨by simp [Scan.isCode, hregion, hquote], hcloses, rfl⟩
        · exact Or.inl (Int.le_refl _)
  | quoted quote =>
    simp only
    split
    · exact Or.inl (Int.le_refl _)
    · split <;> exact Or.inl (Int.le_refl _)
  | escaped quote => exact Or.inl (Int.le_refl _)

/-- A scan that stays above a depth is above it after every part of the text. -/
theorem Scan.StaysAbove.le_run {floor : Int} {s : Scan} {cs front : List Char}
    (h : s.StaysAbove floor cs) (hfront : front <+: cs) : floor ≤ (s.run front).depth := by
  obtain ⟨back, rfl⟩ := hfront
  exact (Scan.staysAbove_append.mp h).2.start

/-- With a bracket open, a scan stays above zero or comes back to it a first time. -/
theorem Scan.staysAbove_or_exists_return {s : Scan} (hs : 1 ≤ s.depth) (cs : List Char) :
    s.StaysAbove 1 cs ∨ ∃ inner c rest, cs = inner ++ c :: rest ∧ s.StaysAbove 1 inner ∧
      ((s.run inner).step c).depth = 0 := by
  induction cs generalizing s with
  | nil => exact Or.inl hs
  | cons c cs ih =>
    by_cases hnext : 1 ≤ (s.step c).depth
    · rcases ih hnext with hstays | ⟨inner, d, rest, rfl, hinner, hzero⟩
      · exact Or.inl ⟨hs, hstays⟩
      · exact Or.inr ⟨c :: inner, d, rest, rfl, ⟨hs, hinner⟩, hzero⟩
    · refine Or.inr ⟨[], c, cs, rfl, hs, ?_⟩
      show (s.step c).depth = 0
      rcases s.step_cases c with hle | ⟨-, -, hdown⟩ <;> omega

/-! ## The first return -/

/-- Behind the bracket `o` and the text `inner`, the character `c` is the first after which no
bracket is open. -/
structure FirstReturn (o : Char) (inner : List Char) (c : Char) : Prop where
  stays : Scan.StaysAbove 1 (Scan.initial.step o) inner
  back : (((Scan.initial.step o).run inner).step c).depth = 0

instance (o : Char) (inner : List Char) (c : Char) : Decidable (FirstReturn o inner c) :=
  decidable_of_iff (Scan.StaysAbove 1 (Scan.initial.step o) inner ∧
      (((Scan.initial.step o).run inner).step c).depth = 0)
    ⟨fun ⟨hstays, hback⟩ => ⟨hstays, hback⟩, fun h => ⟨h.stays, h.back⟩⟩

/-- The offsets behind `opening` of the bytes of code after which no bracket is open, in a text that
starts at `opening`. A byte belongs to the character that it is a part of. -/
def returnsFrom (opening : Nat) (cs : List Char) : Set Nat :=
  {offset | opening < offset ∧ ∃ before c after, cs = before ++ c :: after ∧
    opening + byteLen before ≤ offset ∧ offset < opening + byteLen before + c.utf8Size ∧
    (Scan.initial.run before).isCode c = true ∧ ((Scan.initial.run before).step c).depth = 0}

section Return

variable {o c : Char} {inner rest : List Char} {opening : Nat}

/-- The character that takes a scan back closes the one bracket that is open. -/
theorem FirstReturn.closes (h : FirstReturn o inner c) :
    ((Scan.initial.step o).run inner).isCode c = true ∧
      Signature.closes ((Scan.initial.step o).run inner).prev c = true ∧
      ((Scan.initial.step o).run inner).depth = 1 := by
  have habove := h.stays.le_run List.prefix_rfl
  have hback := h.back
  rcases ((Scan.initial.step o).run inner).step_cases c with hle | ⟨hcode, hcloses, hdown⟩
  · omega
  · exact ⟨hcode, hcloses, by omega⟩

/-- What stands between a bracket and the first return is closed. -/
theorem FirstReturn.closed (ho : opens o = true) (h : FirstReturn o inner c) : Closed inner := by
  obtain ⟨hcode, -, hdepth⟩ := h.closes
  have harrow : Scan.initial.prev = '=' ↔ (Scan.initial.step o).prev = '=' := by
    rw [step_initial_of_opens ho]
    refine iff_of_false (by decide) ?_
    rintro rfl
    exact absurd ho (by decide)
  have halike : Scan.Alike (-1) (Scan.initial.step o) Scan.initial := by
    refine ⟨?_, ?_, harrow⟩ <;> rw [step_initial_of_opens ho] <;> rfl
  have hrun := halike.run inner
  refine ⟨halike.staysAbove h.stays, ?_, ?_⟩
  · rw [hrun.depth, hdepth]
    rfl
  · rw [hrun.region]
    simp only [Scan.isCode, Bool.and_eq_true, beq_iff_eq] at hcode
    exact hcode.1

/-- A bracket before a closed text comes back behind it. -/
theorem FirstReturn.of_closed (ho : opens o = true) (hinner : Closed inner)
    (hc : ∀ prev, Signature.closes prev c = true) : FirstReturn o inner c := by
  obtain ⟨-, -, hstays⟩ := hinner.run (t := ⟨.code, 1, o⟩) rfl
  rw [← step_initial_of_opens ho] at hstays
  refine ⟨by simpa [step_initial_of_opens ho] using hstays, ?_⟩
  rw [step_initial_of_opens ho, run_group hinner hc]

/-- There is only one first return. -/
theorem FirstReturn.unique {inner' rest' : List Char} {c' : Char} (h : FirstReturn o inner c)
    (h' : FirstReturn o inner' c') (heq : inner ++ c :: rest = inner' ++ c' :: rest') :
    inner = inner' ∧ c = c' := by
  -- a longer one would go through zero on its way
  have hlonger : ∀ {xs ys : List Char} {x y : Char}, FirstReturn o xs x → FirstReturn o ys y →
      ¬ xs ++ [x] <+: ys := by
    intro xs ys x y hx hy hfront
    have habove := hy.stays.le_run hfront
    rw [Scan.run_append, Scan.run_cons, Scan.run_nil, hx.back] at habove
    omega
  rcases List.append_eq_append_iff.mp heq with ⟨m, rfl, htail⟩ | ⟨m, rfl, htail⟩
  · cases m with
    | nil => exact ⟨by simp, (List.cons.inj htail).1⟩
    | cons d m =>
      obtain ⟨rfl, -⟩ := List.cons.inj htail
      exact absurd ⟨m, by simp⟩ (hlonger h h')
  · cases m with
    | nil => exact ⟨by simp, (List.cons.inj htail).1.symm⟩
    | cons d m =>
      obtain ⟨rfl, -⟩ := List.cons.inj htail
      exact absurd ⟨m, by simp⟩ (hlonger h' h)

/-- All along a text that leaves the bracket before it open, some bracket is open. -/
theorem one_le_depth_of_staysAbove (ho : opens o = true)
    (hstays : Scan.StaysAbove 1 (Scan.initial.step o) inner) {before after : List Char} {d : Char}
    (h : o :: inner = before ++ d :: after) : 1 ≤ ((Scan.initial.run before).step d).depth := by
  cases before with
  | nil =>
    obtain ⟨rfl, -⟩ := List.cons.inj h
    rw [Scan.run_nil, step_initial_of_opens ho]
  | cons x before =>
    rw [List.cons_append, List.cons.injEq] at h
    obtain ⟨rfl, rfl⟩ := h
    have hfront : before ++ [d] <+: before ++ d :: after := ⟨after, by simp⟩
    have habove := hstays.le_run hfront
    rwa [Scan.run_append] at habove

theorem returnsFrom_eq_empty (ho : opens o = true)
    (hstays : Scan.StaysAbove 1 (Scan.initial.step o) inner) :
    returnsFrom opening (o :: inner) = ∅ := by
  refine Set.eq_empty_iff_forall_notMem.mpr ?_
  rintro offset ⟨-, before, d, after, hsplit, -, -, -, hzero⟩
  have habove := one_le_depth_of_staysAbove ho hstays hsplit
  omega

/-- The first return is the least of all returns. -/
theorem isLeast_returnsFrom (ho : opens o = true) (h : FirstReturn o inner c) :
    IsLeast (returnsFrom opening (o :: (inner ++ c :: rest))) (opening + byteLen (o :: inner)) := by
  obtain ⟨hcode, -, -⟩ := h.closes
  have hpos := o.utf8Size_pos
  have hwidth := c.utf8Size_pos
  constructor
  · refine ⟨?_, o :: inner, c, rest, rfl, Nat.le_refl _, ?_, hcode, h.back⟩
    · rw [byteLen_cons]
      omega
    · omega
  · rintro offset ⟨-, before, d, after, hsplit, hfrom, -, -, hzero⟩
    rw [← List.cons_append] at hsplit
    rcases List.append_eq_append_iff.mp hsplit with ⟨m, rfl, -⟩ | ⟨m, hinner, htail⟩
    · rw [byteLen_append] at hfrom
      omega
    · cases m with
      | nil =>
        rw [List.append_nil] at hinner
        rw [hinner]
        exact hfrom
      | cons x m =>
        -- it would lie before the first return, where the bracket is still open
        obtain ⟨rfl, -⟩ := List.cons.inj htail
        have habove := one_le_depth_of_staysAbove ho h.stays hinner
        omega

end Return

/-! ## The search -/

/-- The search passes over a text that leaves the bracket open, and then goes on behind the last
character of code. -/
theorem closeOf?_append {o : Char} {inner : List Char} (ho : opens o = true)
    (hstays : Scan.StaysAbove 1 (Scan.initial.step o) inner) :
    ∃ last, lastCode? (o :: inner) = some last ∧ ∀ rest, closeOf? (o :: (inner ++ rest)) =
      closeAmong? last
        (marksFrom ((Scan.initial.step o).run inner) (inner.length + 1) rest) := by
  have hfirst : Scan.initial.isCode o = true := by
    simp [Scan.isCode, Scan.initial, not_isQuote_of_opens ho]
  have hmarks : ∀ cs, marks (o :: cs) = ⟨0, o, 0⟩ :: marksFrom (Scan.initial.step o) 1 cs := by
    intro cs
    rw [marks, marksFrom, if_pos hfirst]
    rfl
  refine ⟨((marksFrom (Scan.initial.step o) 1 inner).getLast?.map Mark.char).getD o, ?_, ?_⟩
  · rw [lastCode?, hmarks, List.getLast?_cons]
    cases (marksFrom (Scan.initial.step o) 1 inner).getLast? <;> rfl
  · intro rest
    have hprev : (Scan.initial.step o).prev = '=' → o = '=' := by
      rw [step_initial_of_opens ho]
      exact id
    rw [closeOf?, if_pos ho, hmarks, closeAmong?, if_neg (by simp), marksFrom_append,
      closeAmong?_append hstays hprev, Nat.add_comm 1]

theorem closingBracket?_of_cut? {text : String} {opening : Nat} {front tail : List Char}
    (hcut : cut? opening text.toList = some (front, tail)) :
    closingBracket? text opening =
      (closeOf? tail).map fun close => opening + byteLen (tail.take close) := by
  simp only [closingBracket?, hcut, Option.bind_eq_bind, Option.bind_some]
  cases closeOf? tail <;> rfl

/-- The bracket `o` is closed by a `>` behind a string literal that stands behind `=`: the last
character of code before the `>` is the `=`. -/
def HidesClose (o : Char) (tail : List Char) : Prop :=
  ∃ inner rest, tail = inner ++ '>' :: rest ∧ FirstReturn o inner '>' ∧
    lastCode? (o :: inner) = some '='

instance (o : Char) (tail : List Char) : Decidable (HidesClose o tail) :=
  decidable_of_iff (∃ n < tail.length, tail[n]? = some '>' ∧ FirstReturn o (tail.take n) '>' ∧
      lastCode? (o :: tail.take n) = some '=') (by
    constructor
    · rintro ⟨n, hn, hget, hreturn, hlast⟩
      refine ⟨tail.take n, tail.drop (n + 1), ?_, hreturn, hlast⟩
      obtain ⟨_, hchar⟩ := List.getElem?_eq_some_iff.mp hget
      rw [← hchar, ← List.drop_eq_getElem_cons, List.take_append_drop]
    · rintro ⟨inner, rest, rfl, hreturn, hlast⟩
      refine ⟨inner.length, by simp, by simp, ?_, ?_⟩ <;> rwa [List.take_left])

/-- A character that closes a bracket for the scan but not for the search is a `>` behind `=`. -/
theorem eq_of_not_closes {p q c : Char} (hp : closes p c = true) (hq : closes q c = false) :
    c = '>' ∧ q = '=' := by
  simp only [closes, Bool.or_eq_true, Bool.and_eq_true, beq_iff_eq, Bool.or_eq_false_iff,
    Bool.and_eq_false_iff, beq_eq_false_iff_ne, bne_eq_false_iff_eq] at hp hq
  obtain ⟨⟨⟨hparen, hbracket⟩, hbrace⟩, hangle⟩ := hq
  rcases hp with ((h | h) | h) | ⟨h, -⟩
  · exact absurd h hparen
  · exact absurd h hbracket
  · exact absurd h hbrace
  · exact ⟨h, hangle.resolve_left fun hne => hne h⟩

theorem not_hidesClose_of_staysAbove {o : Char} {tail : List Char}
    (hstays : Scan.StaysAbove 1 (Scan.initial.step o) tail) : ¬HidesClose o tail := by
  rintro ⟨inner, rest, rfl, hreturn, -⟩
  have hfront : inner ++ ['>'] <+: inner ++ '>' :: rest := ⟨rest, by simp⟩
  have habove := hstays.le_run hfront
  rw [Scan.run_append, Scan.run_cons, Scan.run_nil, hreturn.back] at habove
  omega

section Search

variable {o c : Char} {inner rest : List Char}

theorem FirstReturn.hidesClose_iff (h : FirstReturn o inner c) :
    HidesClose o (inner ++ c :: rest) ↔ c = '>' ∧ lastCode? (o :: inner) = some '=' := by
  constructor
  · rintro ⟨inner', rest', heq, h', hlast⟩
    obtain ⟨rfl, rfl⟩ := h.unique h' heq
    exact ⟨rfl, hlast⟩
  · rintro ⟨rfl, hlast⟩
    exact ⟨inner, rest, rfl, h, hlast⟩

/-- The search stops at the first return exactly if the scan and the search agree on the character
before it. -/
theorem FirstReturn.closeOf?_iff (h : FirstReturn o inner c) (ho : opens o = true) :
    closeOf? (o :: (inner ++ c :: rest)) = some (inner.length + 1) ↔
      ¬(c = '>' ∧ lastCode? (o :: inner) = some '=') := by
  obtain ⟨hcode, hcloses, hdepth⟩ := h.closes
  obtain ⟨last, hlast, hsearch⟩ := closeOf?_append ho h.stays
  rw [hsearch, marksFrom, if_pos hcode, closeAmong?, hdepth, hlast, Option.some.injEq]
  cases hfound : Signature.closes last c with
  | true =>
    refine iff_of_true (by simp) ?_
    rintro ⟨rfl, rfl⟩
    exact absurd hfound (by decide)
  | false =>
    refine iff_of_false ?_ (not_not_intro (eq_of_not_closes hcloses hfound))
    -- what is found then stands behind the first return
    rw [if_neg (by simp)]
    intro hbehind
    obtain ⟨m, hm, hindex, -⟩ := exists_mark_of_closeAmong? hbehind
    have hlt := (index_lt_of_mem_marksFrom hm).1
    omega

/-- The search finds nothing in a text that leaves the bracket open. -/
theorem closeOf?_eq_none (ho : opens o = true)
    (hstays : Scan.StaysAbove 1 (Scan.initial.step o) inner) : closeOf? (o :: inner) = none := by
  obtain ⟨last, -, hsearch⟩ := closeOf?_append ho hstays
  simpa [marksFrom, closeAmong?] using hsearch []

/-- What the search finds is the first return, if that is not hidden. -/
theorem firstReturn_of_closeOf? (ho : opens o = true) (hhides : ¬HidesClose o (inner ++ c :: rest))
    (h : closeOf? (o :: (inner ++ c :: rest)) = some (inner.length + 1)) :
    FirstReturn o inner c := by
  have hone : 1 ≤ (Scan.initial.step o).depth := by rw [step_initial_of_opens ho]
  rcases Scan.staysAbove_or_exists_return hone (inner ++ c :: rest) with
    hstays | ⟨inner', c', rest', heq, hinner', hzero⟩
  · rw [closeOf?_eq_none ho hstays] at h
    cases h
  · have hreturn : FirstReturn o inner' c' := ⟨hinner', hzero⟩
    rw [heq] at h hhides
    have hfound : closeOf? (o :: (inner' ++ c' :: rest')) = some (inner'.length + 1) :=
      (hreturn.closeOf?_iff ho).mpr (hreturn.hidesClose_iff.not.mp hhides)
    have hlength : inner'.length = inner.length := by
      have := Option.some.inj (hfound.symm.trans h)
      omega
    obtain ⟨rfl, htail⟩ := List.append_inj heq.symm hlength
    obtain ⟨rfl, -⟩ := List.cons.inj htail
    exact hreturn

end Search

/-- **Where a bracket closes.** For the bracket at an offset, the search finds the least offset
behind it at which no bracket is open any more, and nothing if there is no such offset; exactly if
the bracket is not closed by a `>` behind a string literal behind `=`. -/
theorem closingBracket?_isLeast_iff {text : String} {opening : Nat} {front tail : List Char}
    {o : Char} (hcut : cut? opening text.toList = some (front, o :: tail)) (ho : opens o = true) :
    ((∀ close, closingBracket? text opening = some close ↔
        IsLeast (returnsFrom opening (o :: tail)) close) ∧
      (closingBracket? text opening = none ↔ returnsFrom opening (o :: tail) = ∅)) ↔
      ¬HidesClose o tail := by
  have hone : 1 ≤ (Scan.initial.step o).depth := by rw [step_initial_of_opens ho]
  rw [closingBracket?_of_cut? hcut]
  rcases Scan.staysAbove_or_exists_return hone tail with hstays | ⟨inner, c, rest, rfl, hinner, hz⟩
  · -- the bracket stays open to the end
    have hnone : closeOf? (o :: tail) = none := closeOf?_eq_none ho hstays
    have hempty : returnsFrom opening (o :: tail) = ∅ := returnsFrom_eq_empty ho hstays
    exact iff_of_true (by simp [hnone, hempty, IsLeast]) (not_hidesClose_of_staysAbove hstays)
  · have hreturn : FirstReturn o inner c := ⟨hinner, hz⟩
    have hleast : IsLeast (returnsFrom opening (o :: (inner ++ c :: rest)))
        (opening + byteLen (o :: inner)) := isLeast_returnsFrom ho hreturn
    have htake : (o :: (inner ++ c :: rest)).take (inner.length + 1) = o :: inner := by simp
    rw [hreturn.hidesClose_iff, ← hreturn.closeOf?_iff ho]
    constructor
    · rintro ⟨hall, -⟩
      obtain ⟨index, hindex, hoffset⟩ := Option.map_eq_some_iff.mp ((hall _).mpr hleast)
      rw [← htake, Nat.add_left_cancel_iff] at hoffset
      rw [hindex, eq_of_byteLen_take_eq (lt_length_of_closeOf? hindex).le (by simp) hoffset]
    · intro hsome
      rw [hsome, Option.map_some, htake]
      refine ⟨fun close => ?_, ?_⟩
      · rw [Option.some.injEq]
        exact ⟨fun heq => heq ▸ hleast, fun h => hleast.unique h⟩
      · exact iff_of_false (by simp) (Set.nonempty_iff_ne_empty.mp ⟨_, hleast.1⟩)

/-- Neither an arrow within a literal nor one behind it gets in the way. -/
theorem closingBracket?_isLeast_default :
    closingBracket? "run<T = \"=>\">(f: (x: T) => void)" 3 = some 12 ∧
      IsLeast (returnsFrom 3 "<T = \"=>\">(f: (x: T) => void)".toList) 12 := by
  have hcut : cut? 3 "run<T = \"=>\">(f: (x: T) => void)".toList =
      some ("run".toList, "<T = \"=>\">(f: (x: T) => void)".toList) := by decide +kernel
  have hfound : closingBracket? "run<T = \"=>\">(f: (x: T) => void)" 3 = some 12 := by
    decide +kernel
  have hall := (closingBracket?_isLeast_iff hcut (by decide)).mpr (by decide +kernel)
  exact ⟨hfound, (hall.1 12).mp hfound⟩

/-- The bracket of type parameters with a default is closed by the `>` at 6. The search finds
another bracket behind it, and nothing if there is none. -/
theorem angle_behind_literal_missed :
    (IsLeast (returnsFrom 0 "<T=\"a\">(x: T)".toList) 6 ∧
      closingBracket? "<T=\"a\">(x: T)" 0 = some 12) ∧
    IsLeast (returnsFrom 0 "<T=\"a\">".toList) 6 ∧ closingBracket? "<T=\"a\">" 0 = none := by
  have hreturn : FirstReturn '<' "T=\"a\"".toList '>' := by decide +kernel
  have hleast : ∀ rest, IsLeast (returnsFrom 0 ('<' :: ("T=\"a\"".toList ++ '>' :: rest))) 6 :=
    fun _ => isLeast_returnsFrom (by decide) hreturn
  exact ⟨⟨hleast "(x: T)".toList, by decide +kernel⟩, hleast [], by decide +kernel⟩

end Assist.Signature
