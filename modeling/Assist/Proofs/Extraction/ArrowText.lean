import Assist.Extraction.Arrow
import Assist.Proofs.Signature.TopLevel
import Assist.Proofs.Text.Search
import Mathlib.Data.Option.Basic

/-!
# The text of an arrow function

A function is turned into an arrow function by three finds in its text: the keyword, the first
parenthesis with the bracket that closes it, and a brace behind that. The keyword gives way to that
of a constant, and an equals sign and an arrow are put in.

The brace is the first one at the end of a line, or the first one if none is at the end of a line.
Brackets do not count. `toArrow?_arrowText_iff` says when this is the brace of the body: object
types in a return type stand before it, and blocks within the body come behind it, which is where
the arrow goes on some texts (`arrow_beside_body`).

The name that is reported ends before the type parameters, while the equals sign goes behind them.
`arrow_declares_name_iff` says when the constant that the new text declares has the reported name:
exactly if the parenthesis stands right behind the name. With type parameters it never does
(`type_parameters_left_in_name`).
-/

namespace Assist.Extraction

open Assist.Text Assist.Signature

/-! ## The brace that is found -/

theorem splitAtBody?_cons {c : Char} (hc : c ≠ '{') (cs : List Char) :
    splitAtBody? (c :: cs) = (splitAtBody? cs).map fun (gap, block) => (c :: gap, block) := by
  have hnot : ∀ ps, ¬('{' :: ps <+: c :: cs) := fun ps h => hc (List.cons_prefix_cons.mp h).1.symm
  rw [splitAtBody?, splitAtBody?, splitAtFirst?_cons_of_not (hnot _),
    splitAtFirst?_cons_of_not (hnot _), Option.map_or]

/-- With a brace in the text, some brace is found. -/
theorem exists_splitAtBody? (ret body : List Char) :
    ∃ gap block, splitAtBody? (ret ++ '{' :: body) = some (gap, '{' :: block) ∧
      ret ++ '{' :: body = gap ++ '{' :: block := by
  rw [splitAtBody?]
  cases hline : splitAtFirst? ['{', '\n'] (ret ++ '{' :: body) with
  | some parts =>
    obtain ⟨gap, found⟩ := parts
    obtain ⟨happend, rest, rfl⟩ := splitAtFirst?_eq_append hline
    exact ⟨gap, '\n' :: rest, rfl, happend⟩
  | none =>
    cases hbrace : splitAtFirst? ['{'] (ret ++ '{' :: body) with
    | some parts =>
      obtain ⟨gap, found⟩ := parts
      obtain ⟨happend, rest, rfl⟩ := splitAtFirst?_eq_append hbrace
      exact ⟨gap, rest, rfl, happend⟩
    | none =>
      rw [splitAtFirst?_eq_none_iff, List.singleton_infix_iff] at hbrace
      exact absurd (by simp) hbrace

/-- The brace between `ret` and `body` is the one that is found. If it ends its line, there is no
such brace before it; if not, there is no brace at all before it, and none at the end of a line
behind it. -/
def IsFoundBrace (ret body : List Char) : Prop :=
  if body.head? = some '\n' then ¬['{', '\n'] <:+: ret
  else '{' ∉ ret ∧ ¬['{', '\n'] <:+: body

instance (ret body : List Char) : Decidable (IsFoundBrace ret body) :=
  inferInstanceAs (Decidable (if body.head? = some '\n' then ¬['{', '\n'] <:+: ret
    else '{' ∉ ret ∧ ¬['{', '\n'] <:+: body))

theorem splitAtBody?_eq_iff {ret body : List Char} :
    splitAtBody? (ret ++ '{' :: body) = some (ret, '{' :: body) ↔ IsFoundBrace ret body := by
  have hline := @splitAtFirst?_eq_some_iff '{' ['\n'] (by decide) (ret ++ '{' :: body) ret
    ('{' :: body)
  have hbrace := @splitAtFirst?_eq_some_iff '{' [] (by decide) (ret ++ '{' :: body) ret
    ('{' :: body)
  have hends : ['{', '\n'] <+: '{' :: body ↔ body.head? = some '\n' := by
    rw [List.cons_prefix_cons]
    cases body <;> simp [eq_comm]
  simp only [true_and] at hline hbrace
  rw [splitAtBody?, Option.or_eq_some_iff, IsFoundBrace, hline, hbrace, splitAtFirst?_eq_none_iff,
    hends, List.singleton_infix_iff]
  split
  · rename_i hnewline
    constructor
    · rintro (⟨-, hret⟩ | ⟨hnone, -⟩)
      · exact hret
      · -- the brace itself is at the end of a line
        have hoccurs : ['{', '\n'] <:+: '{' :: body := (hends.mpr hnewline).isInfix
        exact absurd (hoccurs.trans (List.suffix_append ret _).isInfix) hnone
    · exact fun hret => Or.inl ⟨hnewline, hret⟩
  · rename_i hnewline
    constructor
    · rintro (⟨h, -⟩ | ⟨hnone, -, hret⟩)
      · exact absurd h hnewline
      · refine ⟨hret, fun hbody => hnone (hbody.trans ?_)⟩
        exact ⟨ret ++ ['{'], [], by simp⟩
    · rintro ⟨hret, hbody⟩
      refine Or.inr ⟨fun hoccurs => ?_, List.prefix_append ['{'] body, hret⟩
      rcases List.infix_cons_iff.mp (infix_of_infix_append hret hoccurs) with h | h
      · exact hnewline (hends.mp h)
      · exact hbody h

/-! ## The new text -/

/-- The text of a function: what stands before the keyword, the name, the parameters, and what
follows the bracket that closes them. -/
def functionText (pre name params rest : List Char) : List Char :=
  pre ++ functionKeyword ++ name ++ '(' :: (params ++ ')' :: rest)

/-- The text of a constant that is an arrow function, with the arrow between `gap` and `block`. -/
def arrowText (pre name params gap block : List Char) : List Char :=
  pre ++ "const ".toList ++ name ++ " = (".toList ++ params ++ ')' :: gap ++ "=> ".toList ++ block

theorem splitAtFirst?_keyword {pre : List Char} (hpre : ¬functionKeyword <:+: pre)
    (rest : List Char) : splitAtFirst? functionKeyword (pre ++ functionKeyword ++ rest) =
      some (pre, functionKeyword ++ rest) := by
  refine (@splitAtFirst?_eq_some_iff 'f' "unction ".toList (by decide) _ _ _).mpr ⟨?_, ?_, hpre⟩
  · exact List.append_assoc pre functionKeyword rest
  · exact List.prefix_append functionKeyword rest

/-- What is left to find once the keyword is found. -/
theorem toArrow?_of_keyword {pre : List Char} (hpre : ¬functionKeyword <:+: pre)
    (rest : List Char) : toArrow? (pre ++ functionKeyword ++ rest) = do
      let (head, tail) ← splitAtFirst? ['('] (pre ++ "const ".toList ++ rest)
      let close ← closeOf? tail
      let (gap, block) ← splitAtBody? (tail.drop close)
      return head ++ " = ".toList ++ tail.take close ++ gap ++ "=> ".toList ++ block := by
  rw [toArrow?, splitAtFirst?_keyword hpre]
  simp only [Option.bind_eq_bind, Option.bind_some, List.drop_left]

/-- The arrow goes before the brace that is found behind the parameters. -/
theorem toArrow?_functionText {pre name params : List Char} (hkeyword : ¬functionKeyword <:+: pre)
    (hpre : '(' ∉ pre) (hname : '(' ∉ name) (hparams : Closed params) (rest : List Char) :
    toArrow? (functionText pre name params rest) =
      (splitAtBody? rest).map fun (gap, block) => arrowText pre name params gap block := by
  have hparen : '(' ∉ pre ++ "const ".toList ++ name := by simp [hpre, hname]
  have hsplit := splitAtFirst?_char hparen (params ++ ')' :: rest)
  have hclose := closeOf?_group (o := '(') (c := ')') (by decide) hparams (by simp [closes]) rest
  have htail : ('(' :: (params ++ ')' :: rest)).drop (params.length + 1) = ')' :: rest := by simp
  have hfront : ('(' :: (params ++ ')' :: rest)).take (params.length + 1) = '(' :: params := by simp
  rw [functionText, List.append_assoc (pre ++ functionKeyword), toArrow?_of_keyword hkeyword,
    ← List.append_assoc, hsplit]
  simp only [Option.bind_eq_bind, Option.bind_some, hclose, htail, hfront,
    splitAtBody?_cons (by decide : ')' ≠ '{')]
  cases splitAtBody? rest with
  | none => rfl
  | some parts =>
    obtain ⟨gap, block⟩ := parts
    simp [arrowText]

/-- An arrow put in before two braces of one text gives two texts. -/
theorem arrowText_inj {pre name params gap block ret body : List Char}
    (happend : ret ++ '{' :: body = gap ++ '{' :: block)
    (h : arrowText pre name params gap ('{' :: block) =
      arrowText pre name params ret ('{' :: body)) : gap = ret ∧ block = body := by
  -- the part between the places would start with a brace and with an arrow
  have hshift : ∀ {xs ys m : List Char}, '{' :: xs = m ++ '{' :: ys →
      "=> ".toList ++ '{' :: xs = m ++ ("=> ".toList ++ '{' :: ys) → m = [] := by
    intro xs ys m hbrace harrow
    cases m with
    | nil => rfl
    | cons d m =>
      have hd : d = '{' := (List.cons.inj hbrace).1.symm
      have hd' : d = '=' := (List.cons.inj harrow).1.symm
      rw [hd] at hd'
      exact absurd hd' (by decide)
  simp only [arrowText, List.append_assoc, List.append_cancel_left_eq, List.cons_append,
    List.cons.injEq, true_and] at h
  rcases List.append_eq_append_iff.mp happend with ⟨m, rfl, hm⟩ | ⟨m, rfl, hm⟩
  · rw [List.append_assoc, List.append_cancel_left_eq] at h
    obtain rfl := hshift hm h.symm
    simpa using hm.symm
  · rw [List.append_assoc, List.append_cancel_left_eq] at h
    obtain rfl := hshift hm h
    simpa using hm

/-- **Where the arrow goes.** A function text always has an arrow function, with the arrow before
some brace behind the parameters. It is the brace of the body exactly if that is the one found. -/
theorem toArrow?_arrowText_iff {pre name params : List Char}
    (hkeyword : ¬functionKeyword <:+: pre) (hpre : '(' ∉ pre) (hname : '(' ∉ name)
    (hparams : Closed params) (ret body : List Char) :
    ∃ gap block, ret ++ '{' :: body = gap ++ '{' :: block ∧
      toArrow? (functionText pre name params (ret ++ '{' :: body)) =
        some (arrowText pre name params gap ('{' :: block)) ∧
      (toArrow? (functionText pre name params (ret ++ '{' :: body)) =
        some (arrowText pre name params ret ('{' :: body)) ↔ IsFoundBrace ret body) := by
  obtain ⟨gap, block, hfound, happend⟩ := exists_splitAtBody? ret body
  have harrow : toArrow? (functionText pre name params (ret ++ '{' :: body)) =
      some (arrowText pre name params gap ('{' :: block)) := by
    rw [toArrow?_functionText hkeyword hpre hname hparams, hfound]
    rfl
  refine ⟨gap, block, happend, harrow, ?_⟩
  rw [harrow, Option.some.injEq, ← splitAtBody?_eq_iff, hfound, Option.some.injEq, Prod.mk.injEq,
    List.cons.injEq]
  constructor
  · intro h
    obtain ⟨rfl, rfl⟩ := arrowText_inj happend h
    exact ⟨rfl, rfl, rfl⟩
  · rintro ⟨rfl, -, rfl⟩
    rfl

theorem toArrow?_arrowText_sum :
    toArrow? "\nfunction sum(a: T): \x7b sum: T \x7d \x7b\n    return a;\n\x7d\n".toList =
      some "\nconst sum = (a: T): \x7b sum: T \x7d => \x7b\n    return a;\n\x7d\n".toList := by
  obtain ⟨gap, block, -, -, hiff⟩ := @toArrow?_arrowText_iff "\n".toList "sum".toList
    "a: T".toList (by decide +kernel) (by decide +kernel) (by decide +kernel) (by decide +kernel)
    ": \x7b sum: T \x7d ".toList "\n    return a;\n\x7d\n".toList
  have harrow := hiff.mpr (by decide +kernel)
  have htext : functionText "\n".toList "sum".toList "a: T".toList
      (": \x7b sum: T \x7d ".toList ++ '{' :: "\n    return a;\n\x7d\n".toList) =
      "\nfunction sum(a: T): \x7b sum: T \x7d \x7b\n    return a;\n\x7d\n".toList := by
    decide +kernel
  rw [htext] at harrow
  rw [harrow]
  decide +kernel

/-- The arrow goes before an object type on lines of its own, before an object type if the body is
on one line, and before a block within the body if that ends a line and the brace of the body does
not. -/
theorem arrow_beside_body :
    (Closed " \x7b\n    sum: T;\n\x7d".toList ∧
      toArrow? (functionText [] "sum".toList [] ": \x7b\n    sum: T;\n\x7d \x7b\n\x7d".toList) =
        some "const sum = (): => \x7b\n    sum: T;\n\x7d \x7b\n\x7d".toList ∧
      arrowText [] "sum".toList [] ": \x7b\n    sum: T;\n\x7d ".toList "\x7b\n\x7d".toList ≠
        "const sum = (): => \x7b\n    sum: T;\n\x7d \x7b\n\x7d".toList) ∧
    (Closed " \x7b sum: T \x7d".toList ∧
      toArrow? (functionText [] "sum".toList [] ": \x7b sum: T \x7d \x7b \x7d".toList) =
        some "const sum = (): => \x7b sum: T \x7d \x7b \x7d".toList ∧
      arrowText [] "sum".toList [] ": \x7b sum: T \x7d ".toList "\x7b \x7d".toList ≠
        "const sum = (): => \x7b sum: T \x7d \x7b \x7d".toList) ∧
    toArrow? (functionText [] "sum".toList [] " \x7b if (true) \x7b\n\x7d \x7d".toList) =
        some "const sum = () \x7b if (true) => \x7b\n\x7d \x7d".toList ∧
      arrowText [] "sum".toList [] " ".toList "\x7b if (true) \x7b\n\x7d \x7d".toList ≠
        "const sum = () \x7b if (true) => \x7b\n\x7d \x7d".toList := by
  decide +kernel

/-! ## The declared name -/

/-- What a declaration has between its keyword and its first parenthesis. -/
def declaredHead (declared : List Char) : List Char := declared.takeWhile (· != '(')

theorem declaredHead_append {head : List Char} (hhead : '(' ∉ head) (tail : List Char) :
    declaredHead (head ++ '(' :: tail) = head := by
  have hall : ∀ c ∈ head, (c != '(') = true := by
    intro c hc
    rw [bne_iff_ne]
    rintro rfl
    exact hhead hc
  rw [declaredHead, List.takeWhile_append_of_pos hall]
  simp

/-- The name that is reported ends before the parenthesis, or before the type parameters. -/
theorem name_of_declaredName? {pre head tail name : List Char}
    (hpre : ¬functionKeyword <:+: pre) (hhead : '(' ∉ head)
    (h : declaredName? (pre ++ functionKeyword ++ (head ++ '(' :: tail)) = some name) :
    name = trim (head.takeWhile (· != '<')) ∧ name ≠ [] := by
  simp only [declaredName?, splitAtFirst?_keyword hpre, Option.bind_eq_bind, Option.bind_some,
    List.drop_left, Option.bind_eq_some_iff] at h
  obtain ⟨⟨before, c, after⟩, hsplit, hname⟩ := h
  obtain ⟨happend, hc, hbefore⟩ := splitAtChar?_eq_some_iff.mp hsplit
  obtain ⟨_, hguard, hname⟩ := hname
  have hne : trim before ≠ [] := by
    simpa using (Option.guard_eq_some' _).mp hguard
  obtain rfl : trim before = name := Option.some.inj hname
  have hangle : ∀ d ∈ before, (d != '<') = true := by
    intro d hd
    have := hbefore d hd
    simp only [Bool.or_eq_false_iff] at this
    simp [bne, this.2]
  -- the first of the two characters is the parenthesis, or it stands before it
  have hfront : head.takeWhile (· != '<') = before := by
    rcases List.append_eq_append_iff.mp happend with ⟨m, rfl, hm⟩ | ⟨m, rfl, hm⟩
    · cases m with
      | nil => simpa using List.takeWhile_eq_self_iff.mpr fun d hd => hangle d (by simp [hd])
      | cons d m =>
        obtain ⟨rfl, -⟩ := List.cons.inj hm
        exact absurd (hbefore '(' (by simp)) (by decide)
    · cases m with
      | nil => simpa using List.takeWhile_eq_self_iff.mpr hangle
      | cons d m =>
        obtain ⟨rfl, -⟩ := List.cons.inj hm
        have hopen : c ≠ '(' := fun heq => hhead (by simp [heq])
        have hstop : c = '<' := by simpa [hopen] using hc
        rw [List.takeWhile_append_of_pos hangle, hstop]
        simp
  exact ⟨by rw [hfront], hne⟩

/-- Blanks and type parameters do not start with the equals sign that is put behind them. -/
theorem eq_nil_of_equals_isPrefix {blanks types rest : List Char} (hblanks : allBlank blanks = true)
    (htypes : ∀ c ∈ types.head?, c = '<')
    (h : " = ".toList <+: blanks ++ types ++ " = ".toList ++ rest) : blanks = [] ∧ types = [] := by
  have hblank : ∀ b ∈ blanks, b ≠ '=' := by
    rintro b hb rfl
    exact absurd (List.all_eq_true.mp hblanks '=' hb) (by decide)
  -- the equals sign is the second character, and that is a blank, or `<`, or the blank put in
  match blanks, types, h, hblank, htypes with
  | [], [], _, _, _ => exact ⟨rfl, rfl⟩
  | [], d :: types, h, _, htypes =>
    obtain rfl := htypes d rfl
    exact absurd (List.cons_prefix_cons.mp h).1 (by decide)
  | [b], [], h, _, _ =>
    exact absurd (List.cons_prefix_cons.mp (List.cons_prefix_cons.mp h).2).1 (by decide)
  | [b], d :: types, h, _, htypes =>
    obtain rfl := htypes d rfl
    exact absurd (List.cons_prefix_cons.mp (List.cons_prefix_cons.mp h).2).1 (by decide)
  | b :: b' :: blanks, _, h, hblank, _ =>
    have hb := (List.cons_prefix_cons.mp (List.cons_prefix_cons.mp h).2).1
    exact absurd hb.symm (hblank b' (by simp))

/-- An equals sign behind a name that is cut out of `head` stands behind all of `head` only if the
name is all of it. -/
theorem name_isPrefix_iff {head name : List Char} (hname : name = trim (head.takeWhile (· != '<')))
    (hne : name ≠ []) (rest : List Char) :
    name ++ " = ".toList <+: head ++ " = ".toList ++ rest ↔ head = name := by
  constructor
  · intro h
    obtain ⟨lead, trail, hfront, hlead, htrail⟩ :=
      exists_eq_append_trim (head.takeWhile (· != '<'))
    have hhead : head = lead ++ name ++ trail ++ head.dropWhile (· != '<') := by
      rw [hname, ← hfront, List.takeWhile_append_dropWhile]
    have htypes : ∀ c ∈ (head.dropWhile (· != '<')).head?, c = '<' := by
      intro c hc
      have := List.head?_dropWhile_not (· != '<') head
      rw [Option.mem_def.mp hc] at this
      simpa using this
    generalize head.dropWhile (· != '<') = types at hhead htypes
    subst hhead
    cases lead with
    | cons b lead =>
      -- the name starts with a character that is not blank
      obtain ⟨c, cs, hcons⟩ := List.exists_cons_of_ne_nil hne
      have htrimmed : trim name = name := by rw [hname, trim_trim]
      have hc : isBlank c = false := (trim_eq_self_iff.mp htrimmed).1 c (by rw [hcons]; rfl)
      rw [hcons] at h
      have hb : c = b := (List.cons_prefix_cons.mp h).1
      have hblank := List.all_eq_true.mp hlead b List.mem_cons_self
      rw [← hb, hc] at hblank
      exact absurd hblank Bool.false_ne_true
    | nil =>
      have hrest : " = ".toList <+: trail ++ types ++ " = ".toList ++ rest := by
        simpa only [List.nil_append, List.append_assoc, List.prefix_append_right_inj] using h
      obtain ⟨rfl, rfl⟩ := eq_nil_of_equals_isPrefix htrail htypes hrest
      simp
  · rintro rfl
    exact List.prefix_append _ rest

/-- Blanks are no keyword. -/
theorem not_keyword_of_allBlank {ws : List Char} (hws : allBlank ws = true) :
    ¬functionKeyword <:+: ws := by
  intro h
  have hmem : 'f' ∈ ws := h.subset (by decide)
  exact absurd (List.all_eq_true.mp hws 'f' hmem) (by decide)

/-- **The name that an arrow function declares.** With only blanks before the keyword, the constant
has for its name all that stands between the keyword and the first parenthesis, and the name that is
reported is the part of that before the type parameters, trimmed. The constant is declared under the
reported name exactly if the two are the same. -/
theorem arrow_declares_name_iff {ws declared name arrow : List Char} (hws : allBlank ws = true)
    (hname : declaredName? (ws ++ functionKeyword ++ declared) = some name)
    (harrow : toArrow? (ws ++ functionKeyword ++ declared) = some arrow) :
    name = trim ((declaredHead declared).takeWhile (· != '<')) ∧
      ws ++ "const ".toList ++ declaredHead declared ++ " = ".toList <+: arrow ∧
      (ws ++ "const ".toList ++ name ++ " = ".toList <+: arrow ↔ declaredHead declared = name) := by
  have hkeyword := not_keyword_of_allBlank hws
  have hparen : '(' ∉ ws ++ "const ".toList := by
    intro hmem
    rcases List.mem_append.mp hmem with h | h
    · exact absurd (List.all_eq_true.mp hws '(' h) (by decide)
    · exact absurd h (by decide)
  rw [toArrow?_of_keyword hkeyword] at harrow
  simp only [Option.bind_eq_bind, Option.bind_eq_some_iff, Option.pure_def,
    Option.some.injEq] at harrow
  obtain ⟨⟨front, found⟩, hsplit, close, -, ⟨gap, block⟩, -, rfl⟩ := harrow
  have hmem : '(' ∈ declared := by
    obtain ⟨happend, after, rfl⟩ := splitAtFirst?_eq_append hsplit
    have hin : '(' ∈ ws ++ "const ".toList ++ declared := by
      rw [happend]
      simp
    exact (List.mem_append.mp hin).resolve_left hparen
  obtain ⟨head, tail, rfl, hhead⟩ := List.eq_append_cons_of_mem hmem
  obtain ⟨hcut, hne⟩ := name_of_declaredName? hkeyword hhead hname
  have hfirst : '(' ∉ ws ++ "const ".toList ++ head := by
    rw [List.mem_append, not_or]
    exact ⟨hparen, hhead⟩
  rw [← List.append_assoc, splitAtFirst?_char hfirst, Option.some.injEq, Prod.mk.injEq] at hsplit
  obtain ⟨rfl, rfl⟩ := hsplit
  have hiff := name_isPrefix_iff hcut hne (('(' :: tail).take close ++ gap ++ "=> ".toList ++ block)
  rw [declaredHead_append hhead]
  refine ⟨hcut, ?_, ?_⟩
  · simp only [List.append_assoc, List.prefix_append_right_inj]
    exact List.prefix_append _ _
  · rw [← hiff]
    simp only [List.append_assoc, List.prefix_append_right_inj]

theorem arrow_declares_name_sum :
    declaredName? "\nfunction sum(a) \x7b\n\x7d".toList = some "sum".toList ∧
      "\nconst sum = ".toList <+: "\nconst sum = (a) => \x7b\n\x7d".toList := by
  have hname : declaredName? ("\n".toList ++ functionKeyword ++ "sum(a) \x7b\n\x7d".toList) =
      some "sum".toList := by decide +kernel
  have harrow : toArrow? ("\n".toList ++ functionKeyword ++ "sum(a) \x7b\n\x7d".toList) =
      some "\nconst sum = (a) => \x7b\n\x7d".toList := by decide +kernel
  obtain ⟨-, -, hiff⟩ := arrow_declares_name_iff (by decide) hname harrow
  exact ⟨hname, hiff.mpr (by decide)⟩

/-- Type parameters are left where they were, behind the name of the constant; and so are blanks. -/
theorem type_parameters_left_in_name :
    (declaredName? "function parse<T>(text: string) \x7b\x7d".toList = some "parse".toList ∧
      toArrow? "function parse<T>(text: string) \x7b\x7d".toList =
        some "const parse<T> = (text: string) => \x7b\x7d".toList ∧
      ¬"const parse = ".toList <+: "const parse<T> = (text: string) => \x7b\x7d".toList) ∧
    declaredName? "function sum (a) \x7b\x7d".toList = some "sum".toList ∧
      toArrow? "function sum (a) \x7b\x7d".toList = some "const sum  = (a) => \x7b\x7d".toList ∧
      ¬"const sum = ".toList <+: "const sum  = (a) => \x7b\x7d".toList := by
  decide +kernel

end Assist.Extraction
