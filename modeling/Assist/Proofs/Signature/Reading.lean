import Assist.Proofs.Signature.TopLevel
import Assist.Signature.Parser

/-!
# Reading the parts of a header

One lemma for each part that a reader takes off a text: a mark such as `?`, a name, a group, what a
parameter binds. Each says what is read if the part stands before an arbitrary rest, under the
condition that the rest cannot be taken for more of the part. What is left is always the rest
without leading blanks. The type and the initial value end a parameter, and are read together
(`readAnnotation?_trim`).
-/

namespace Assist.Signature

open Assist.Text

/-! ## Identifiers -/

/-- The characters of ASCII identifiers. -/
def isAsciiNameChar (c : Char) : Bool := c.isAlphanum || c == '_' || c == '$'

/-- A name of one or more of these characters. -/
def IsIdentifier (name : String) : Prop :=
  name.toList ≠ [] ∧ ∀ c ∈ name.toList, isAsciiNameChar c = true

instance (name : String) : Decidable (IsIdentifier name) :=
  decidable_of_iff (name.toList ≠ [] ∧ name.toList.all isAsciiNameChar = true)
    (by rw [IsIdentifier, List.all_eq_true])

theorem isNameChar_of_ascii {c : Char} (h : isAsciiNameChar c = true) : isNameChar c = true := by
  unfold isNameChar
  rw [isAsciiNameChar] at h
  rw [h, Bool.true_or]

theorem toNat_of_ascii {c : Char} (h : isAsciiNameChar c = true) :
    36 ≤ c.toNat ∧ c.toNat ≤ 122 := by
  change ((((decide (65 ≤ c.val ∧ c.val ≤ 90) ||
    (decide (97 ≤ c.val) && decide (c.val ≤ 122))) ||
    (decide (48 ≤ c.val) && decide (c.val ≤ 57))) || c == '_') || c == '$') = true at h
  simp only [Bool.or_eq_true, Bool.and_eq_true, decide_eq_true_eq, beq_iff_eq,
    UInt32.le_iff_toNat_le] at h
  change ((((65 ≤ c.toNat ∧ c.toNat ≤ 90) ∨ (97 ≤ c.toNat ∧ c.toNat ≤ 122)) ∨
    (48 ≤ c.toNat ∧ c.toNat ≤ 57)) ∨ c = '_') ∨ c = '$' at h
  rcases h with (h | rfl) | rfl
  · omega
  · decide
  · decide

theorem not_isBlank_of_ascii {c : Char} (h : isAsciiNameChar c = true) : isBlank c = false := by
  have hbounds := toNat_of_ascii h
  by_contra hblank
  simp only [isBlank, Bool.not_eq_false, Bool.or_eq_true, Bool.and_eq_true, decide_eq_true_eq,
    beq_iff_eq] at hblank
  omega

theorem isInert_of_isNameChar {c : Char} (h : isNameChar c = true) : isInert c = true := by
  have hne : ∀ d, isNameChar d = false → (c == d) = false := by
    intro d hd
    refine beq_false_of_ne ?_
    rintro rfl
    rw [h] at hd
    exact absurd hd (by decide)
  simp only [isInert, isQuote, opens, bne]
  rw [hne '"' rfl, hne '\x27' rfl, hne '\x60' rfl, hne '(' rfl, hne '[' rfl, hne '{' rfl,
    hne '<' rfl, hne ')' rfl, hne ']' rfl, hne '}' rfl, hne '>' rfl]
  rfl

theorem isInert_of_ascii {c : Char} (h : isAsciiNameChar c = true) : isInert c = true :=
  isInert_of_isNameChar (isNameChar_of_ascii h)

theorem IsIdentifier.exists_cons {name : String} (h : IsIdentifier name) :
    ∃ c cs, name.toList = c :: cs ∧ isAsciiNameChar c = true := by
  obtain ⟨c, cs, hcons⟩ := List.exists_cons_of_ne_nil h.1
  refine ⟨c, cs, hcons, h.2 c ?_⟩
  rw [hcons]
  exact List.mem_cons_self

theorem IsIdentifier.closed {name : String} (h : IsIdentifier name) : Closed name.toList :=
  Closed.of_isInert fun c hc => isInert_of_ascii (h.2 c hc)

theorem IsIdentifier.freeOf {name : String} (h : IsIdentifier name) {c : Char}
    (hc : isAsciiNameChar c = false) : FreeOf c name.toList := by
  refine FreeOf.of_not_mem fun hmem => ?_
  have htrue := h.2 c hmem
  rw [hc] at htrue
  exact absurd htrue (by decide)

/-! ## Marks, names and groups -/

theorem takeMark_trimStart {mark : String} (hmark : ∃ c rest, mark.toList = c :: rest ∧
    isBlank c = false) (present : Bool) {cs : List Char}
    (hcs : stripStart? mark.toList (trimStart cs) = none) :
    takeMark mark (trimStart ((if present then mark.toList else []) ++ cs)) =
      (present, trimStart cs) := by
  cases present with
  | false =>
    rw [if_neg Bool.false_ne_true, List.nil_append, takeMark, hcs]
  | true =>
    obtain ⟨c, rest, hmark, hblank⟩ := hmark
    have hstart : trimStart (mark.toList ++ cs) = mark.toList ++ cs := by
      rw [hmark]
      exact trimStart_cons hblank _
    have hstrip : stripStart? mark.toList (mark.toList ++ cs) = some cs :=
      stripStart?_eq_some_iff.mpr rfl
    rw [if_pos rfl, hstart, takeMark, hstrip]

theorem takeName?_append {name : String} (h : IsIdentifier name) {cs : List Char}
    (hcs : ∀ c ∈ cs.head?, isNameChar c = false) :
    takeName? (name.toList ++ cs) = some (name, trimStart cs) := by
  have hall : ∀ c ∈ name.toList, isNameChar c = true := fun c hc => isNameChar_of_ascii (h.2 c hc)
  have htake : cs.takeWhile isNameChar = [] := by
    cases cs with
    | nil => rfl
    | cons c cs => exact List.takeWhile_cons_of_neg (by simpa using hcs c rfl)
  have hdrop : cs.dropWhile isNameChar = cs := by
    cases cs with
    | nil => rfl
    | cons c cs => exact List.dropWhile_cons_of_neg (by simpa using hcs c rfl)
  unfold takeName?
  rw [List.takeWhile_append_of_pos hall, htake, List.append_nil, List.dropWhile_append_of_pos hall,
    hdrop]
  split
  · rename_i hnil
    exact absurd hnil h.1
  · rw [String.ofList_toList]

/-- A group and what follows it are cut apart behind the closing bracket. -/
theorem cut_group (o c : Char) (inner rest : List Char) :
    (o :: (inner ++ c :: rest)).take (inner.length + 1 + 1) = o :: (inner ++ [c]) ∧
      (o :: (inner ++ c :: rest)).drop (inner.length + 1 + 1) = rest := by
  have hsplit : o :: (inner ++ c :: rest) = (o :: (inner ++ [c])) ++ rest := by simp
  have hlength : (o :: (inner ++ [c])).length = inner.length + 1 + 1 := by simp
  rw [hsplit]
  exact ⟨List.take_left' hlength, List.drop_left' hlength⟩

theorem takeGroup?_append {o c : Char} {inner : List Char} (ho : opens o = true)
    (hinner : Closed inner) (hc : closes ((lastCode? inner).getD o) c = true) (rest : List Char) :
    takeGroup? (o :: (inner ++ c :: rest)) = some (inner, trimStart rest) := by
  have htake : (o :: (inner ++ c :: rest)).take (inner.length + 1) = o :: inner := by
    rw [List.take_succ_cons, List.take_left]
  simp only [takeGroup?, closeOf?_group ho hinner hc, Option.bind_eq_bind, Option.bind_some,
    Option.pure_def, htake, (cut_group o c inner rest).2]
  rfl

theorem takeBinding?_identifier {name : String} (h : IsIdentifier name) {cs : List Char}
    (hcs : ∀ c ∈ cs.head?, isNameChar c = false) :
    takeBinding? (name.toList ++ cs) = some (.identifier name, trimStart cs) := by
  obtain ⟨c, rest, hname, hc⟩ := h.exists_cons
  unfold takeBinding?
  split
  · rename_i hbrace
    rw [hname, List.cons_append, List.cons.injEq] at hbrace
    rw [hbrace.1] at hc
    exact absurd hc (by decide)
  · rename_i hbracket
    rw [hname, List.cons_append, List.cons.injEq] at hbracket
    rw [hbracket.1] at hc
    exact absurd hc (by decide)
  · rw [takeName?_append h hcs]
    rfl

/-- The brackets of patterns. -/
def IsPatternBrackets (o c : Char) : Prop := (o = '{' ∧ c = '}') ∨ (o = '[' ∧ c = ']')

theorem IsPatternBrackets.opens {o c : Char} (h : IsPatternBrackets o c) :
    Signature.opens o = true := by
  rcases h with ⟨rfl, -⟩ | ⟨rfl, -⟩ <;> decide

theorem IsPatternBrackets.closes {o c : Char} (h : IsPatternBrackets o c) (prev : Char) :
    Signature.closes prev c = true := by
  rcases h with ⟨-, rfl⟩ | ⟨-, rfl⟩ <;> rfl

theorem takeBinding?_group {o c : Char} (h : IsPatternBrackets o c) {inner : List Char}
    (hinner : Closed inner) (cs : List Char) :
    takeBinding? (o :: (inner ++ [c]) ++ cs) =
      some (.pattern (String.ofList (o :: (inner ++ [c]))), trimStart cs) := by
  have hclose := closeOf?_group h.opens hinner (h.closes _) cs
  obtain ⟨htake, hdrop⟩ := cut_group o c inner cs
  have hread : (do
      let close ← closeOf? (o :: (inner ++ c :: cs))
      return (Binding.pattern (String.ofList ((o :: (inner ++ c :: cs)).take (close + 1))),
        trimStart ((o :: (inner ++ c :: cs)).drop (close + 1)))) =
      some (.pattern (String.ofList (o :: (inner ++ [c]))), trimStart cs) := by
    simp only [hclose, Option.bind_eq_bind, Option.bind_some, Option.pure_def, htake, hdrop]
  have hjoin : o :: (inner ++ [c]) ++ cs = o :: (inner ++ c :: cs) := by simp
  rw [hjoin]
  rcases h with ⟨rfl, -⟩ | ⟨rfl, -⟩
  · exact hread
  · exact hread

/-! ## Types and initial values of parameters -/

/-- How the type of a parameter is written. -/
def typeText : Option String → List Char
  | none => []
  | some type => ':' :: ' ' :: type.toList

/-- How the initial value of a parameter is written. -/
def initializerText : Option String → List Char
  | none => []
  | some initializer => ' ' :: '=' :: ' ' :: initializer.toList

/-- A type that can be read back behind a parameter. -/
structure IsParameterType (type : String) : Prop where
  nonempty : type.toList ≠ []
  trimmed : trim type.toList = type.toList
  closed : Closed type.toList
  noComma : FreeOf ',' type.toList
  noInitializer : NoInitializer type.toList

/-- The type and the initial value at the end of a parameter. -/
def readAnnotation? (cs : List Char) : Option (Option TypeExpr × Option String) :=
  match initializerAt? cs with
  | some place =>
    (readTypeOf? (cs.take place)).map (·, some (String.ofList (trim (cs.drop (place + 1)))))
  | none => (readTypeOf? cs).map (·, none)

theorem readTypeOf?_append {type : String} (hne : type.toList ≠ [])
    (htrim : trim type.toList = type.toList) (ws : List Char) (hws : allBlank ws = true) :
    readTypeOf? (typeText (some type) ++ ws) = some (some (.text type)) := by
  have hlast := (trim_eq_self_iff.mp htrim).2
  have htyped : trim (typeText (some type)) = typeText (some type) := by
    refine trim_eq_self_iff.mpr ⟨by simp [typeText]; decide, ?_⟩
    have hsplit : typeText (some type) = [':', ' '] ++ type.toList := rfl
    rw [hsplit, List.getLast?_append_of_ne_nil _ hne]
    exact hlast
  have hpad := trim_pad [] ws (by decide) hws htyped
  rw [List.nil_append] at hpad
  unfold readTypeOf?
  rw [hpad, typeText]
  simp only [trim_space htrim, String.ofList_toList]

/-- What is left of an initial value once the end of the parameter is trimmed. -/
theorem trimEnd_initializer {initializer : List Char} (h : trim initializer = initializer)
    (xs : List Char) :
    ∃ rest, trimEnd (xs ++ ' ' :: '=' :: ' ' :: initializer) = xs ++ ' ' :: '=' :: rest ∧
      trim rest = initializer ∧ rest.head? ≠ some '>' := by
  have hmark : ∀ c ∈ (xs ++ [' ', '=']).getLast?, isBlank c = false := by
    intro c hc
    rw [List.getLast?_append, List.getLast?_cons_cons, List.getLast?_singleton, Option.some_or,
      Option.mem_some_iff] at hc
    subst hc
    decide
  have hend := trimEnd_append hmark (' ' :: initializer)
  simp only [List.append_assoc, List.cons_append, List.nil_append] at hend
  cases initializer with
  | nil => exact ⟨[], hend, rfl, by simp⟩
  | cons c cs =>
    have hrest : trimEnd (' ' :: c :: cs) = ' ' :: c :: cs := by
      rw [trimEnd_eq_self_iff, List.getLast?_cons_cons]
      exact (trim_eq_self_iff.mp h).2
    rw [hrest] at hend
    exact ⟨' ' :: c :: cs, hend, trim_space h, by simp⟩

theorem closed_typeText {type? : Option String} (h : ∀ type ∈ type?, Closed type.toList) :
    Closed (typeText type?) := by
  cases type? with
  | none => exact Closed.nil
  | some type => exact (by decide : Closed [':', ' ']).append (h type rfl)

theorem noInitializer_typeText {type? : Option String} (h : ∀ type ∈ type?, IsParameterType type) :
    NoInitializer (typeText type?) := by
  cases type? with
  | none => exact NoInitializer.of_freeOf (by decide)
  | some type =>
    have htype := h type rfl
    exact NoInitializer.append (by decide : Closed [':', ' ']) htype.closed (by decide)
      htype.noInitializer

theorem readAnnotation?_append {typed rest : List Char} (hclosed : Closed typed)
    (hfree : NoInitializer typed) (hhead : rest.head? ≠ some '>') :
    readAnnotation? (typed ++ '=' :: rest) =
      (readTypeOf? typed).map (·, some (String.ofList (trim rest))) := by
  have hdrop : (typed ++ '=' :: rest).drop (typed.length + 1) = rest := by
    rw [← List.drop_drop, List.drop_left]
    rfl
  rw [readAnnotation?, initializerAt?_append hclosed hfree hhead]
  simp only [List.take_left, hdrop]

/-- **The end of a parameter.** The type and the initial value are read as they are written. -/
theorem readAnnotation?_trim {type? initializer : Option String}
    (htype : ∀ type ∈ type?, IsParameterType type)
    (hinit : ∀ i ∈ initializer, trim i.toList = i.toList) :
    readAnnotation? (trimStart (trimEnd (typeText type? ++ initializerText initializer))) =
      some (type?.map TypeExpr.text, initializer) := by
  cases initializer with
  | none =>
    have hnone := initializerAt?_eq_none (noInitializer_typeText htype)
    rw [initializerText, List.append_nil]
    cases type? with
    | none => rfl
    | some type =>
      obtain ⟨hne, htrim, -, -, -⟩ := htype type rfl
      have hself : trimStart (trimEnd (typeText (some type))) = typeText (some type) := by
        have hend : trimEnd (typeText (some type)) = typeText (some type) := by
          rw [trimEnd_eq_self_iff, show typeText (some type) = [':', ' '] ++ type.toList from rfl,
            List.getLast?_append_of_ne_nil _ hne]
          exact (trim_eq_self_iff.mp htrim).2
        rw [hend]
        exact trimStart_cons (by decide) _
      have hread := readTypeOf?_append hne htrim [] (by decide)
      rw [List.append_nil] at hread
      rw [hself, readAnnotation?, hnone]
      simp only [hread]
      rfl
  | some i =>
    obtain ⟨rest, hend, hrest, hhead⟩ := trimEnd_initializer (hinit i rfl) (typeText type?)
    rw [initializerText, hend]
    cases type? with
    | none =>
      have hstart : trimStart (typeText none ++ ' ' :: '=' :: rest) = [] ++ '=' :: rest :=
        trimStart_space ('=' :: rest)
      have hfree : NoInitializer [] := by decide
      rw [hstart, readAnnotation?_append Closed.nil hfree hhead, hrest, String.ofList_toList]
      rfl
    | some type =>
      obtain ⟨hne, htrim, hclosed, -, -⟩ := htype type rfl
      have hstart : trimStart (typeText (some type) ++ ' ' :: '=' :: rest) =
          (typeText (some type) ++ [' ']) ++ '=' :: rest := by
        rw [List.append_assoc]
        exact trimStart_cons (by decide) _
      have htyped : Closed (typeText (some type) ++ [' ']) :=
        (closed_typeText fun t ht => (htype t ht).closed).append (by decide)
      have hfree : NoInitializer (typeText (some type) ++ [' ']) :=
        NoInitializer.append (closed_typeText fun t ht => (htype t ht).closed) (by decide)
          (noInitializer_typeText htype) (NoInitializer.of_freeOf (by decide))
      rw [hstart, readAnnotation?_append htyped hfree hhead, hrest, String.ofList_toList,
        readTypeOf?_append hne htrim [' '] (by decide)]
      rfl

/-- A parameter is read by its parts. -/
theorem readParameter?_eq_some {text cs₁ cs₂ cs₃ : List Char} {rest optional : Bool}
    {name : Binding} {type? : Option TypeExpr} {initializer : Option String}
    (hrest : takeMark "..." (trim text) = (rest, cs₁)) (hname : takeBinding? cs₁ = some (name, cs₂))
    (hoptional : takeMark "?" cs₂ = (optional, cs₃))
    (hend : readAnnotation? cs₃ = some (type?, initializer)) :
    readParameter? text = some ⟨rest, name, optional, type?, initializer⟩ := by
  unfold readAnnotation? at hend
  unfold readParameter?
  simp only [hrest, hname, hoptional, Option.bind_eq_bind, Option.bind_some, Option.pure_def]
  cases hplace : initializerAt? cs₃ with
  | none =>
    simp only [hplace, Option.map_eq_some_iff, Prod.mk.injEq] at hend ⊢
    obtain ⟨type, htype, rfl, rfl⟩ := hend
    rw [htype, Option.bind_some]
  | some place =>
    simp only [hplace, Option.map_eq_some_iff, Prod.mk.injEq] at hend ⊢
    obtain ⟨type, htype, rfl, rfl⟩ := hend
    rw [htype, Option.bind_some]

end Assist.Signature
