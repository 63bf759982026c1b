import Assist.Signature.Scan
import Mathlib.Data.List.Basic

/-!
# Closed texts

A text is `Closed` when a scan of it never closes a bracket that it did not open, leaves none open
and does not end inside a string literal. How a scan goes through a closed text does not depend on
what came before: it finds the same characters of code, as much deeper as the scan was
(`Closed.marksFrom`), and is then as deep as before (`Closed.run`). The one thing that a scan
carries over is whether the last character was `=`, because of `=>`; and that never matters here, as
no closed text starts with `>`.

So closed texts can be put one behind the other (`Closed.append`) and between brackets
(`Closed.group`), and where a bracket closes, where a text is split and which characters are at the
top level can be read off the parts that a text is made of.
-/

namespace Assist.Signature

open Assist.Text

/-! ## Scans of longer texts -/

namespace Scan

/-- The state after a text. -/
def run (s : Scan) (cs : List Char) : Scan := cs.foldl step s

@[simp] theorem run_nil (s : Scan) : s.run [] = s := rfl

@[simp] theorem run_cons (s : Scan) (c : Char) (cs : List Char) :
    s.run (c :: cs) = (s.step c).run cs := rfl

theorem run_append (s : Scan) (xs ys : List Char) : s.run (xs ++ ys) = (s.run xs).run ys :=
  List.foldl_append

/-- All along the text the scan has at least `floor` brackets open. -/
def StaysAbove (floor : Int) : Scan → List Char → Prop
  | s, [] => floor ≤ s.depth
  | s, c :: cs => floor ≤ s.depth ∧ StaysAbove floor (s.step c) cs

instance decidableStaysAbove (floor : Int) : ∀ s cs, Decidable (StaysAbove floor s cs)
  | s, [] => inferInstanceAs (Decidable (floor ≤ s.depth))
  | s, c :: cs =>
    have := decidableStaysAbove floor (s.step c) cs
    inferInstanceAs (Decidable (floor ≤ s.depth ∧ StaysAbove floor (s.step c) cs))

theorem StaysAbove.start {floor : Int} {s : Scan} {cs : List Char} (h : StaysAbove floor s cs) :
    floor ≤ s.depth := by
  cases cs with
  | nil => exact h
  | cons c cs => exact h.1

theorem StaysAbove.mono {floor floor' : Int} (hle : floor' ≤ floor) {s : Scan} {cs : List Char}
    (h : StaysAbove floor s cs) : StaysAbove floor' s cs := by
  induction cs generalizing s with
  | nil => exact Int.le_trans hle h
  | cons c cs ih => exact ⟨Int.le_trans hle h.1, ih h.2⟩

theorem staysAbove_append {floor : Int} {s : Scan} {xs ys : List Char} :
    StaysAbove floor s (xs ++ ys) ↔ StaysAbove floor s xs ∧ StaysAbove floor (s.run xs) ys := by
  induction xs generalizing s with
  | nil =>
    rw [List.nil_append, run_nil]
    exact ⟨fun h => ⟨h.start, h⟩, fun h => h.2⟩
  | cons c xs ih =>
    show _ ∧ StaysAbove floor (s.step c) (xs ++ ys) ↔ (_ ∧ StaysAbove floor (s.step c) xs) ∧ _
    rw [ih, run_cons, and_assoc]

/-! ## Scans that go in step -/

/-- Two states from which a text is read alike, `t` being `d` brackets deeper. -/
structure Alike (d : Int) (s t : Scan) : Prop where
  region : t.region = s.region
  depth : t.depth = s.depth + d
  arrow : t.prev = '=' ↔ s.prev = '='

theorem depthAfter_add {d : Int} {s t : Scan} {c : Char} (hdepth : t.depth = s.depth + d)
    (hcloses : closes t.prev c = closes s.prev c) : t.depthAfter c = s.depthAfter c + d := by
  unfold depthAfter
  rw [hcloses, hdepth]
  split
  · omega
  · split <;> omega

theorem closes_congr {p q : Char} (h : p = '=' ↔ q = '=') (c : Char) : closes p c = closes q c := by
  have hbne : (p != '=') = (q != '=') := by
    rw [Bool.eq_iff_iff, bne_iff_ne, bne_iff_ne, ne_eq, ne_eq, h]
  rw [closes, closes, hbne]

theorem Alike.step {d : Int} {s t : Scan} (h : Alike d s t) (c : Char) :
    Alike d (s.step c) (t.step c) := by
  obtain ⟨hregion, hdepth, harrow⟩ := h
  unfold Scan.step
  rw [hregion]
  cases s.region with
  | code =>
    by_cases hquote : isQuote c = true
    · simp only [hquote, if_true]
      exact ⟨rfl, hdepth, Iff.rfl⟩
    · simp only [hquote, if_false, Bool.false_eq_true]
      exact ⟨rfl, depthAfter_add hdepth (closes_congr harrow c), Iff.rfl⟩
  | quoted quote =>
    by_cases hslash : c = '\\'
    · simp only [hslash, if_true]
      exact ⟨rfl, hdepth, harrow⟩
    · by_cases hend : c = quote
      · simp only [if_neg hslash, if_pos hend]
        exact ⟨rfl, hdepth, harrow⟩
      · simp only [if_neg hslash, if_neg hend]
        exact ⟨hregion, hdepth, harrow⟩
  | escaped quote => exact ⟨rfl, hdepth, harrow⟩

/-- In code a scan forgets what came before at any character but `>`. -/
theorem Alike.of_step {d : Int} {s t : Scan} (hs : s.region = .code) (ht : t.region = .code)
    (hdepth : t.depth = s.depth + d) {c : Char} (hc : c ≠ '>') :
    Alike d (s.step c) (t.step c) := by
  unfold Scan.step
  rw [hs, ht]
  by_cases hquote : isQuote c = true
  · simp only [hquote, if_true]
    exact ⟨rfl, hdepth, Iff.rfl⟩
  · simp only [hquote, if_false, Bool.false_eq_true]
    have hcloses : closes t.prev c = closes s.prev c := by
      rw [closes, closes, beq_false_of_ne hc, Bool.false_and, Bool.false_and]
    exact ⟨rfl, depthAfter_add hdepth hcloses, Iff.rfl⟩

theorem Alike.run {d : Int} {s t : Scan} (h : Alike d s t) (cs : List Char) :
    Alike d (s.run cs) (t.run cs) := by
  induction cs generalizing s t with
  | nil => exact h
  | cons c cs ih => exact ih (h.step c)

theorem Alike.staysAbove {d floor : Int} {s t : Scan} (h : Alike d s t) {cs : List Char}
    (hs : StaysAbove floor s cs) : StaysAbove (floor + d) t cs := by
  induction cs generalizing s t with
  | nil =>
    show floor + d ≤ t.depth
    have hle : floor ≤ s.depth := hs
    have := h.depth
    omega
  | cons c cs ih =>
    obtain ⟨hle, hrest⟩ := hs
    have := h.depth
    exact ⟨by omega, ih (h.step c) hrest⟩

end Scan

/-! ## The characters of code -/

/-- A mark of a part of a text as a mark of the text. -/
def Mark.shift (places : Nat) (d : Int) (m : Mark) : Mark := ⟨m.index + places, m.char, m.depth + d⟩

theorem marksFrom_append (s : Scan) (index : Nat) (xs ys : List Char) :
    marksFrom s index (xs ++ ys) =
      marksFrom s index xs ++ marksFrom (s.run xs) (index + xs.length) ys := by
  induction xs generalizing s index with
  | nil => rfl
  | cons c xs ih =>
    have hindex : index + (c :: xs).length = index + 1 + xs.length := by
      rw [List.length_cons]
      omega
    rw [List.cons_append, marksFrom, marksFrom, ih, Scan.run_cons, hindex]
    split <;> rfl

theorem marksFrom_alike {d : Int} {s t : Scan} (h : s.Alike d t) (index places : Nat)
    (cs : List Char) :
    marksFrom t (index + places) cs = (marksFrom s index cs).map (Mark.shift places d) := by
  induction cs generalizing s t index with
  | nil => rfl
  | cons c cs ih =>
    have hcode : t.isCode c = s.isCode c := by rw [Scan.isCode, Scan.isCode, h.region]
    have hrest := ih (h.step c) (index + 1)
    rw [show index + 1 + places = index + places + 1 by omega] at hrest
    rw [marksFrom, marksFrom, hcode, hrest]
    split
    · rw [List.map_cons, Mark.shift, h.depth]
    · rfl

theorem index_lt_of_mem_marksFrom {s : Scan} {index : Nat} {cs : List Char} {m : Mark}
    (h : m ∈ marksFrom s index cs) : index ≤ m.index ∧ m.index < index + cs.length := by
  induction cs generalizing s index with
  | nil => exact absurd h (by simp [marksFrom])
  | cons c cs ih =>
    rw [marksFrom] at h
    rw [List.length_cons]
    split at h
    · rcases List.mem_cons.mp h with rfl | h
      · exact ⟨Nat.le_refl _, by simp⟩
      · have := ih h
        omega
    · have := ih h
      omega

/-- All along a text that stays above `floor`, marks are at least as deep. -/
theorem le_depth_of_mem_marksFrom {floor : Int} {s : Scan} {index : Nat} {cs : List Char} {m : Mark}
    (hs : Scan.StaysAbove floor s cs) (h : m ∈ marksFrom s index cs) : floor ≤ m.depth := by
  induction cs generalizing s index with
  | nil => exact absurd h (by simp [marksFrom])
  | cons c cs ih =>
    rw [marksFrom] at h
    split at h
    · rcases List.mem_cons.mp h with rfl | h
      · exact hs.1
      · exact ih hs.2 h
    · exact ih hs.2 h

/-! ## Closed texts -/

/-- A scan of the text closes only brackets that the text opened, and leaves no bracket and no
string literal open. -/
structure Closed (cs : List Char) : Prop where
  stays : Scan.StaysAbove 0 Scan.initial cs
  depth : (Scan.initial.run cs).depth = 0
  code : (Scan.initial.run cs).region = .code

instance (cs : List Char) : Decidable (Closed cs) :=
  decidable_of_iff (Scan.StaysAbove 0 Scan.initial cs ∧ (Scan.initial.run cs).depth = 0 ∧
      (Scan.initial.run cs).region = .code)
    ⟨fun ⟨hstays, hdepth, hcode⟩ => ⟨hstays, hdepth, hcode⟩,
      fun h => ⟨h.stays, h.depth, h.code⟩⟩

theorem Closed.nil : Closed [] := by decide

/-- A closed text does not start with a bracket that closes. -/
theorem Closed.head_ne {c : Char} {cs : List Char} (h : Closed (c :: cs)) : c ≠ '>' := by
  rintro rfl
  exact absurd h.stays.2.start (by decide)

theorem Closed.alike {c : Char} {cs : List Char} (h : Closed (c :: cs)) {t : Scan}
    (ht : t.region = .code) : Scan.Alike t.depth (Scan.initial.step c) (t.step c) :=
  Scan.Alike.of_step rfl ht (by simp [Scan.initial]) h.head_ne

/-- A closed text takes a scan from code to code at the same depth, and never below it. -/
theorem Closed.run {cs : List Char} (h : Closed cs) {t : Scan} (ht : t.region = .code) :
    (t.run cs).region = .code ∧ (t.run cs).depth = t.depth ∧ Scan.StaysAbove t.depth t cs := by
  cases cs with
  | nil => exact ⟨ht, rfl, Int.le_refl _⟩
  | cons c cs =>
    have halike := h.alike ht
    have hrun := halike.run cs
    have hstays := halike.staysAbove h.stays.2
    rw [Int.zero_add] at hstays
    refine ⟨?_, ?_, Int.le_refl _, hstays⟩
    · rw [Scan.run_cons, hrun.region]
      exact h.code
    · rw [Scan.run_cons, hrun.depth, show ((Scan.initial.step c).run cs).depth = 0 from h.depth]
      omega

/-- A scan finds in a closed text the marks of the text, from wherever it comes. -/
theorem Closed.marksFrom {cs : List Char} (h : Closed cs) {t : Scan} (ht : t.region = .code)
    (index : Nat) :
    Signature.marksFrom t index cs = (marks cs).map (Mark.shift index t.depth) := by
  cases cs with
  | nil => rfl
  | cons c cs =>
    have hcode : t.isCode c = Scan.initial.isCode c := by
      rw [Scan.isCode, Scan.isCode, ht]
      rfl
    have hrest := marksFrom_alike (h.alike ht) 1 index cs
    rw [show 1 + index = index + 1 by omega] at hrest
    rw [marks, Signature.marksFrom, Signature.marksFrom, hcode, hrest]
    split
    · simp [Mark.shift, Scan.initial]
    · rfl

theorem Closed.append {xs ys : List Char} (hx : Closed xs) (hy : Closed ys) :
    Closed (xs ++ ys) := by
  obtain ⟨hcode, hdepth, hstays⟩ := hy.run hx.code
  rw [hx.depth] at hdepth hstays
  refine ⟨Scan.staysAbove_append.mpr ⟨hx.stays, hstays⟩, ?_, ?_⟩
  · rw [Scan.run_append, hdepth]
  · rw [Scan.run_append, hcode]

theorem Closed.marks_append {xs : List Char} (hx : Closed xs) {ys : List Char} (hy : Closed ys) :
    marks (xs ++ ys) = marks xs ++ (marks ys).map (Mark.shift xs.length 0) := by
  rw [marks, marksFrom_append, hy.marksFrom hx.code, hx.depth, Nat.zero_add]
  rfl

/-- The characters that mean nothing to a scan. -/
def isInert (c : Char) : Bool :=
  !isQuote c && !opens c && c != ')' && c != ']' && c != '}' && c != '>'

theorem Scan.step_of_isInert {s : Scan} {c : Char} (hs : s.region = .code) (hc : isInert c = true) :
    s.step c = ⟨.code, s.depth, c⟩ := by
  simp only [isInert, Bool.and_eq_true, Bool.not_eq_true', bne_iff_ne] at hc
  obtain ⟨⟨⟨⟨⟨hquote, hopens⟩, hparen⟩, hbracket⟩, hbrace⟩, hangle⟩ := hc
  simp [Scan.step, hs, hquote, Scan.depthAfter, hopens, closes, hparen, hbracket, hbrace, hangle]

theorem Closed.singleton {c : Char} (hc : isInert c = true) : Closed [c] := by
  have hstep := Scan.step_of_isInert (s := Scan.initial) rfl hc
  refine ⟨⟨Int.le_refl _, ?_⟩, ?_, ?_⟩
  · rw [hstep]
    exact Int.le_refl _
  · rw [Scan.run_cons, hstep]
    rfl
  · rw [Scan.run_cons, hstep]
    rfl

theorem Closed.of_isInert {cs : List Char} (h : ∀ c ∈ cs, isInert c = true) : Closed cs := by
  induction cs with
  | nil => exact Closed.nil
  | cons c cs ih =>
    exact (Closed.singleton (h c (by simp))).append (ih fun d hd => h d (by simp [hd]))

end Assist.Signature
