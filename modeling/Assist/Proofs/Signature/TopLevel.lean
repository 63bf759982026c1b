import Assist.Proofs.Signature.Closed
import Assist.Proofs.Text.Trim

/-!
# Brackets and the top level of a text

What the questions to a scan answer for a text that is put together from closed parts: the bracket
before a closed text closes right behind it (`closeOf?_group`), and the first initial value and the
last brace at the top level are where they were put (`initializerAt?_append`,
`lastTopLevel?_append`). A part has to be free at its top level of what is looked for (`FreeOf`,
`NoInitializer`); without a separator there it is cut nowhere (`piecesFrom_append`).
-/

namespace Assist.Signature

open Assist.Text

/-! ## Groups -/

/-- The last character of code of a text. -/
def lastCode? (cs : List Char) : Option Char := (marks cs).getLast?.map Mark.char

theorem not_isQuote_of_opens {c : Char} (h : opens c = true) : isQuote c = false := by
  simp only [opens, Bool.or_eq_true, beq_iff_eq] at h
  rcases h with ((rfl | rfl) | rfl) | rfl <;> decide

theorem not_isQuote_of_closes {p c : Char} (h : closes p c = true) : isQuote c = false := by
  simp only [closes, Bool.or_eq_true, Bool.and_eq_true, beq_iff_eq] at h
  rcases h with ((rfl | rfl) | rfl) | ⟨rfl, -⟩ <;> decide

theorem not_opens_of_closes {p c : Char} (h : closes p c = true) : opens c = false := by
  simp only [closes, Bool.or_eq_true, Bool.and_eq_true, beq_iff_eq] at h
  rcases h with ((rfl | rfl) | rfl) | ⟨rfl, -⟩ <;> decide

theorem step_of_opens {s : Scan} {c : Char} (hs : s.region = .code) (h : opens c = true) :
    s.step c = ⟨.code, s.depth + 1, c⟩ := by
  simp [Scan.step, hs, not_isQuote_of_opens h, Scan.depthAfter, h]

theorem step_initial_of_opens {c : Char} (h : opens c = true) :
    Scan.initial.step c = ⟨.code, 1, c⟩ := step_of_opens rfl h

/-- The marks of a bracket, a closed text behind it, and one more character of code. -/
theorem marks_open_append {o c : Char} {inner : List Char} (ho : opens o = true)
    (hinner : Closed inner) (hc : isQuote c = false) (rest : List Char) :
    marks (o :: (inner ++ c :: rest)) = ⟨0, o, 0⟩ :: (marksFrom ⟨.code, 1, o⟩ 1 inner ++
      ⟨inner.length + 1, c, 1⟩ ::
        marksFrom (((⟨.code, 1, o⟩ : Scan).run inner).step c) (inner.length + 2) rest) := by
  obtain ⟨hcode, hdepth, -⟩ := hinner.run (t := ⟨.code, 1, o⟩) rfl
  have hfirst : Scan.initial.isCode o = true := by
    simp [Scan.isCode, Scan.initial, not_isQuote_of_opens ho]
  have hnext : ((⟨.code, 1, o⟩ : Scan).run inner).isCode c = true := by
    simp [Scan.isCode, hcode, hc]
  rw [marks, marksFrom, if_pos hfirst, step_initial_of_opens ho, marksFrom_append, marksFrom,
    if_pos hnext, hdepth]
  simp only [Nat.zero_add, Nat.add_comm 1 inner.length, Scan.initial]

/-- No bracket is closed within a text that leaves at least one open. A closing angle bracket may
stand behind a string literal; then `prev` may be the `=` before it, but not the other way round. -/
theorem closeAmong?_append {s : Scan} {prev : Char} {cs : List Char}
    (hs : Scan.StaysAbove 1 s cs) (hprev : s.prev = '=' → prev = '=') (index : Nat)
    (ms : List Mark) :
    closeAmong? prev (marksFrom s index cs ++ ms) =
      closeAmong? (((marksFrom s index cs).getLast?.map Mark.char).getD prev) ms := by
  induction cs generalizing s prev index with
  | nil => rfl
  | cons c cs ih =>
    obtain ⟨hle, hrest⟩ := hs
    rw [marksFrom]
    by_cases hcode : s.isCode c = true
    · have hregion : s.region = .code ∧ isQuote c = false := by
        simpa [Scan.isCode] using hcode
      have hstep : s.step c = ⟨.code, s.depthAfter c, c⟩ := by
        simp [Scan.step, hregion.1, hregion.2]
      -- at depth one the character does not close, since the scan stays above one
      have hopen : (0 < index && s.depth == 1 && closes prev c) = false := by
        by_contra htrue
        simp only [Bool.not_eq_false, Bool.and_eq_true, beq_iff_eq] at htrue
        obtain ⟨⟨-, hone⟩, hcloses⟩ := htrue
        have hscan : closes s.prev c = true := by
          simp only [closes, Bool.or_eq_true, Bool.and_eq_true, bne_iff_ne] at hcloses ⊢
          rcases hcloses with h | ⟨h, hne⟩
          · exact Or.inl h
          · exact Or.inr ⟨h, fun heq => hne (hprev heq)⟩
        have hdepth : s.depthAfter c = 0 := by
          simp [Scan.depthAfter, not_opens_of_closes hcloses, hscan, hone]
        have hbelow := hrest.start
        rw [hstep] at hbelow
        simp only [hdepth] at hbelow
        omega
      rw [if_pos hcode, List.cons_append, closeAmong?, hopen, if_neg Bool.false_ne_true,
        ih hrest (by rw [hstep]; exact id), List.getLast?_cons]
      cases (marksFrom (s.step c) (index + 1) cs).getLast? <;> rfl
    · rw [if_neg hcode]
      refine ih hrest ?_ _
      -- a quote takes the place of `=`, and within a literal nothing does
      unfold Scan.step
      unfold Scan.isCode at hcode
      cases hregion : s.region with
      | code =>
        have hquote : isQuote c = true := by simpa [hregion] using hcode
        simp only [hquote, if_true]
        rintro rfl
        exact absurd hquote (by decide)
      | quoted quote =>
        simp only
        split
        · exact hprev
        · split <;> exact hprev
      | escaped quote => exact hprev

/-- What is found is behind the start, where one bracket is open. -/
theorem exists_mark_of_closeAmong? {prev : Char} {ms : List Mark} {place : Nat}
    (h : closeAmong? prev ms = some place) :
    ∃ m ∈ ms, m.index = place ∧ 0 < place ∧ m.depth = 1 := by
  induction ms generalizing prev with
  | nil => exact absurd h (by simp [closeAmong?])
  | cons m ms ih =>
    rw [closeAmong?] at h
    split at h
    · rename_i hm
      simp only [Bool.and_eq_true, decide_eq_true_eq, beq_iff_eq] at hm
      obtain rfl := Option.some.inj h
      exact ⟨m, List.mem_cons_self, rfl, hm.1⟩
    · obtain ⟨n, hn, hplace⟩ := ih h
      exact ⟨n, List.mem_cons_of_mem _ hn, hplace⟩

theorem exists_mark_of_closeOf? {cs : List Char} {place : Nat} (h : closeOf? cs = some place) :
    ∃ m ∈ marks cs, m.index = place ∧ 0 < place ∧ m.depth = 1 := by
  cases cs with
  | nil => exact absurd h (by simp [closeOf?])
  | cons c cs =>
    rw [closeOf?] at h
    split at h
    · exact exists_mark_of_closeAmong? h
    · exact absurd h (by simp)

theorem lt_length_of_closeOf? {cs : List Char} {place : Nat} (h : closeOf? cs = some place) :
    place < cs.length := by
  obtain ⟨m, hm, rfl, -⟩ := exists_mark_of_closeOf? h
  have := index_lt_of_mem_marksFrom hm
  omega

/-- **Where a group closes.** A bracket before a closed text closes with the next character, if that
closes a bracket behind the last character of code. -/
theorem closeOf?_group {o c : Char} {inner : List Char} (ho : opens o = true)
    (hinner : Closed inner) (hc : closes ((lastCode? inner).getD o) c = true) (rest : List Char) :
    closeOf? (o :: (inner ++ c :: rest)) = some (inner.length + 1) := by
  obtain ⟨-, -, hstays⟩ := hinner.run (t := ⟨.code, 1, o⟩) rfl
  have hlast : ((marksFrom ⟨.code, 1, o⟩ 1 inner).getLast?.map Mark.char) = lastCode? inner := by
    rw [hinner.marksFrom rfl, List.getLast?_map, Option.map_map, lastCode?]
    rfl
  rw [closeOf?, if_pos ho, marks_open_append ho hinner (not_isQuote_of_closes hc), closeAmong?,
    if_neg (by simp), closeAmong?_append hstays id, hlast, closeAmong?, if_pos (by simp [hc])]

theorem run_group {o c : Char} {inner : List Char} (hinner : Closed inner)
    (hc : ∀ prev, closes prev c = true) :
    ((⟨.code, 1, o⟩ : Scan).run inner).step c = ⟨.code, 0, c⟩ := by
  obtain ⟨hcode, hdepth, -⟩ := hinner.run (t := ⟨.code, 1, o⟩) rfl
  simp [Scan.step, hcode, not_isQuote_of_closes (hc o), Scan.depthAfter,
    not_opens_of_closes (hc o), hc, hdepth]

theorem Closed.group {o c : Char} {inner : List Char} (ho : opens o = true) (hinner : Closed inner)
    (hc : ∀ prev, closes prev c = true) : Closed (o :: (inner ++ [c])) := by
  obtain ⟨-, hdepth, hstays⟩ := hinner.run (t := ⟨.code, 1, o⟩) rfl
  have hrun : Scan.initial.run (o :: (inner ++ [c])) = ⟨.code, 0, c⟩ := by
    rw [Scan.run_cons, step_initial_of_opens ho, Scan.run_append, Scan.run_cons,
      run_group hinner hc, Scan.run_nil]
  refine ⟨⟨Int.le_refl _, ?_⟩, by rw [hrun], by rw [hrun]⟩
  rw [step_initial_of_opens ho, Scan.staysAbove_append]
  have hone : (0 : Int) ≤ 1 := by decide
  refine ⟨hstays.mono hone, ?_, ?_⟩
  · rw [hdepth]
    exact hone
  · rw [run_group hinner hc]
    exact Int.le_refl _

/-! ## The top level -/

/-- The character does not stand outside brackets and string literals. -/
def FreeOf (c : Char) (cs : List Char) : Prop := ∀ m ∈ marks cs, m.depth = 0 → m.char ≠ c

instance (c : Char) (cs : List Char) : Decidable (FreeOf c cs) :=
  inferInstanceAs (Decidable (∀ m ∈ marks cs, m.depth = 0 → m.char ≠ c))

/-- Every `=` outside brackets and string literals is that of an arrow. -/
def NoInitializer (cs : List Char) : Prop :=
  ∀ m ∈ marks cs, m.depth = 0 → m.char = '=' → cs[m.index + 1]? = some '>'

instance (cs : List Char) : Decidable (NoInitializer cs) :=
  inferInstanceAs
    (Decidable (∀ m ∈ marks cs, m.depth = 0 → m.char = '=' → cs[m.index + 1]? = some '>'))

theorem char_mem_of_mem_marksFrom {s : Scan} {index : Nat} {cs : List Char} {m : Mark}
    (h : m ∈ marksFrom s index cs) : m.char ∈ cs := by
  induction cs generalizing s index with
  | nil => exact absurd h (by simp [marksFrom])
  | cons c cs ih =>
    rw [marksFrom] at h
    split at h
    · rcases List.mem_cons.mp h with rfl | h
      · exact List.mem_cons_self
      · exact List.mem_cons_of_mem _ (ih h)
    · exact List.mem_cons_of_mem _ (ih h)

theorem FreeOf.of_not_mem {c : Char} {cs : List Char} (h : c ∉ cs) : FreeOf c cs := by
  intro m hm _ heq
  exact h (heq ▸ char_mem_of_mem_marksFrom hm)

theorem NoInitializer.of_freeOf {cs : List Char} (h : FreeOf '=' cs) : NoInitializer cs :=
  fun m hm hdepth heq => absurd heq (h m hm hdepth)

theorem FreeOf.append {c : Char} {xs ys : List Char} (hx : Closed xs) (hy : Closed ys)
    (hfx : FreeOf c xs) (hfy : FreeOf c ys) : FreeOf c (xs ++ ys) := by
  intro m hm hdepth
  rw [hx.marks_append hy] at hm
  rcases List.mem_append.mp hm with hm | hm
  · exact hfx m hm hdepth
  · obtain ⟨n, hn, rfl⟩ := List.mem_map.mp hm
    exact hfy n hn (by simpa [Mark.shift] using hdepth)

theorem NoInitializer.append {xs ys : List Char} (hx : Closed xs) (hy : Closed ys)
    (hnx : NoInitializer xs) (hny : NoInitializer ys) : NoInitializer (xs ++ ys) := by
  intro m hm hdepth heq
  rw [hx.marks_append hy] at hm
  rcases List.mem_append.mp hm with hm | hm
  · have harrow := hnx m hm hdepth heq
    rw [List.getElem?_append_left (List.getElem?_eq_some_iff.mp harrow).1]
    exact harrow
  · obtain ⟨n, hn, rfl⟩ := List.mem_map.mp hm
    have harrow := hny n hn (by simpa [Mark.shift] using hdepth) heq
    have hindex : n.index + xs.length + 1 - xs.length = n.index + 1 := by omega
    show (xs ++ ys)[n.index + xs.length + 1]? = some '>'
    rw [List.getElem?_append_right (by omega), hindex]
    exact harrow

/-- Within a group nothing but its first bracket is at the top level. -/
theorem FreeOf.group {o c target : Char} {inner : List Char} (ho : opens o = true)
    (hinner : Closed inner) (hc : ∀ prev, closes prev c = true) (htarget : o ≠ target) :
    FreeOf target (o :: (inner ++ [c])) := by
  intro m hm hdepth
  rw [marks_open_append ho hinner (not_isQuote_of_closes (hc o)), hinner.marksFrom rfl] at hm
  rcases List.mem_cons.mp hm with rfl | hm
  · exact htarget
  · rcases List.mem_append.mp hm with hm | hm
    · -- the marks of the inside are one level deeper than zero
      obtain ⟨n, hn, rfl⟩ := List.mem_map.mp hm
      have hle := le_depth_of_mem_marksFrom hinner.stays hn
      simp only [Mark.shift] at hdepth
      omega
    · rcases List.mem_cons.mp hm with rfl | hm
      · exact absurd hdepth Int.one_ne_zero
      · exact absurd hm (by simp [marksFrom])

/-! ## Searches at the top level -/

theorem initializerAt?_eq_none {cs : List Char} (h : NoInitializer cs) :
    initializerAt? cs = none := by
  rw [initializerAt?, Option.map_eq_none_iff, List.find?_eq_none]
  intro m hm hfound
  simp only [Bool.and_eq_true, beq_iff_eq, bne_iff_ne] at hfound
  exact hfound.2 (h m hm hfound.1.2 hfound.1.1)

/-- The marks of a closed text and of a character of code behind it. -/
theorem marks_closed_append {xs : List Char} (hx : Closed xs) {c : Char} (hc : isQuote c = false)
    (ys : List Char) :
    marks (xs ++ c :: ys) = marks xs ++ ⟨xs.length, c, 0⟩ ::
      marksFrom ((Scan.initial.run xs).step c) (xs.length + 1) ys := by
  have hcode : (Scan.initial.run xs).isCode c = true := by simp [Scan.isCode, hx.code, hc]
  rw [marks, marksFrom_append, marksFrom, if_pos hcode, hx.depth, Nat.zero_add]
  rfl

theorem initializerAt?_append {xs ys : List Char} (hx : Closed xs) (hnx : NoInitializer xs)
    (hys : ys.head? ≠ some '>') : initializerAt? (xs ++ '=' :: ys) = some xs.length := by
  have hnext : (xs ++ '=' :: ys)[xs.length + 1]? = ys.head? := by
    rw [List.getElem?_append_right (by omega), Nat.add_sub_cancel_left, List.getElem?_cons_succ,
      List.head?_eq_getElem?]
  have hbefore : (marks xs).find? (fun m => m.char == '=' && m.depth == 0 &&
      (xs ++ '=' :: ys)[m.index + 1]? != some '>') = none := by
    rw [List.find?_eq_none]
    intro m hm hfound
    simp only [Bool.and_eq_true, beq_iff_eq, bne_iff_ne] at hfound
    have harrow := hnx m hm hfound.1.2 hfound.1.1
    refine hfound.2 ?_
    rw [List.getElem?_append_left (List.getElem?_eq_some_iff.mp harrow).1]
    exact harrow
  rw [initializerAt?, marks_closed_append hx (by decide), List.find?_append, hbefore,
    Option.none_or, List.find?_cons_of_pos]
  · rfl
  · simp only [hnext, beq_self_eq_true, Bool.true_and, bne_iff_ne]
    exact hys

theorem lastTopLevel?_append {target : Char} (htarget : isQuote target = false) {xs ys : List Char}
    (hx : Closed xs) (hys : target ∉ ys) : lastTopLevel? target (xs ++ target :: ys) =
      some xs.length := by
  have hnil : (marksFrom ((Scan.initial.run xs).step target) (xs.length + 1) ys).filter
      (fun m => m.char == target && m.depth == 0) = [] := by
    rw [List.filter_eq_nil_iff]
    intro m hm hfound
    simp only [Bool.and_eq_true, beq_iff_eq] at hfound
    exact hys (hfound.1 ▸ char_mem_of_mem_marksFrom hm)
  rw [lastTopLevel?, marks_closed_append hx htarget, List.filter_append,
    List.filter_cons_of_pos (by simp), hnil, List.getLast?_concat]
  rfl

/-! ## Pieces -/

theorem piecesFrom_ne_nil (separator : Char) (s : Scan) (cs : List Char) :
    piecesFrom separator s cs ≠ [] := by
  cases cs with
  | nil => exact List.cons_ne_nil _ _
  | cons c cs =>
    rw [piecesFrom]
    split
    · exact List.cons_ne_nil _ _
    · split <;> exact List.cons_ne_nil _ _

/-- A text without a separator at the top level goes into the first piece as a whole. -/
theorem piecesFrom_append {separator : Char} {s : Scan} {index : Nat} {xs : List Char}
    (h : ∀ m ∈ marksFrom s index xs, m.depth = 0 → m.char ≠ separator) (ys : List Char) :
    piecesFrom separator s (xs ++ ys) =
      (piecesFrom separator (s.run xs) ys).modifyHead (xs ++ ·) := by
  induction xs generalizing s index with
  | nil =>
    cases hpieces : piecesFrom separator s ys with
    | nil => exact absurd hpieces (piecesFrom_ne_nil _ _ _)
    | cons piece pieces => simp [hpieces]
  | cons c xs ih =>
    have hsep : (s.isCode c && c == separator && s.depth == 0) = false := by
      by_contra htrue
      simp only [Bool.not_eq_false, Bool.and_eq_true, beq_iff_eq] at htrue
      obtain ⟨⟨hcode, hc⟩, hdepth⟩ := htrue
      refine h ⟨index, c, s.depth⟩ ?_ hdepth hc
      rw [marksFrom, if_pos hcode]
      exact List.mem_cons_self
    have hrest : ∀ m ∈ marksFrom (s.step c) (index + 1) xs, m.depth = 0 → m.char ≠ separator := by
      intro m hm
      refine h m ?_
      rw [marksFrom]
      split
      · exact List.mem_cons_of_mem _ hm
      · exact hm
    rw [List.cons_append, piecesFrom, ih hrest, hsep, if_neg Bool.false_ne_true, Scan.run_cons]
    cases hpieces : piecesFrom separator ((s.step c).run xs) ys with
    | nil => exact absurd hpieces (piecesFrom_ne_nil _ _ _)
    | cons piece pieces => rfl

theorem Closed.intercalate {texts : List (List Char)} (h : ∀ text ∈ texts, Closed text) :
    Closed ([',', ' '].intercalate texts) := by
  induction texts with
  | nil => exact Closed.nil
  | cons text texts ih =>
    have htext := h text (by simp)
    have hrest := ih fun t ht => h t (by simp [ht])
    cases texts with
    | nil => simpa [List.intercalate] using htext
    | cons next texts =>
      have hjoin : [',', ' '].intercalate (text :: next :: texts) =
          text ++ ([',', ' '] ++ [',', ' '].intercalate (next :: texts)) := by
        simp [List.intercalate]
      rw [hjoin]
      exact htext.append ((by decide : Closed [',', ' ']).append hrest)

/-- A closed text without a comma at its top level. -/
structure IsPiece (text : List Char) : Prop where
  closed : Closed text
  free : FreeOf ',' text

instance (text : List Char) : Decidable (IsPiece text) :=
  decidable_of_iff (Closed text ∧ FreeOf ',' text)
    ⟨fun ⟨hclosed, hfree⟩ => ⟨hclosed, hfree⟩, fun h => ⟨h.closed, h.free⟩⟩

theorem IsPiece.append {xs ys : List Char} (hx : IsPiece xs) (hy : IsPiece ys) :
    IsPiece (xs ++ ys) :=
  ⟨hx.closed.append hy.closed, FreeOf.append hx.closed hy.closed hx.free hy.free⟩

end Assist.Signature
