import Assist.Proofs.Signature.TopLevel

/-!
# Splitting at commas

A text is split at the commas outside brackets and string literals, and each piece is then read on
its own: by a scan that starts anew, without the blanks around the piece. That makes no difference.
Where a piece starts, the scan of the text is in a state from which it reads on as from the start
(`Scan.Fresh`), whatever brackets were closed too often before, and a piece with a comma behind it
ends where the comma stands (`Scan.AtTop`). Only the last piece may leave a bracket or a string
literal open. So a piece need not be a closed text: `a), b(` is one.

So a list of texts with commas between them is split into these texts (`topLevelPieces_join`), the
pieces of a text can be joined and split again, and each is a single piece of its own
(`splitCode_stable`). Nothing but commas and blanks is lost between them (`SpacedFrom`).
-/

namespace Assist.Signature

open Assist.Text

/-! ## Scans at the top level -/

namespace Scan

/-- The scan stands outside brackets and string literals: as many brackets were closed as opened. -/
structure AtTop (s : Scan) : Prop where
  code : s.region = .code
  depth : s.depth = 0

instance (s : Scan) : Decidable s.AtTop :=
  decidable_of_iff (s.region = .code ∧ s.depth = 0)
    ⟨fun ⟨hcode, hdepth⟩ => ⟨hcode, hdepth⟩, fun h => ⟨h.code, h.depth⟩⟩

/-- The scan reads on as it would from the start of a text. -/
def Fresh (s : Scan) : Prop := initial.Alike 0 s

theorem fresh_initial : initial.Fresh := ⟨rfl, rfl, Iff.rfl⟩

theorem Fresh.atTop {s : Scan} (h : s.Fresh) : s.AtTop := ⟨h.region, h.depth⟩

theorem Alike.atTop_iff {s t : Scan} (h : s.Alike 0 t) : t.AtTop ↔ s.AtTop := by
  have hdepth : t.depth = s.depth := by rw [h.depth, Int.add_zero]
  constructor
  · rintro ⟨hcode, hzero⟩
    exact ⟨h.region ▸ hcode, hdepth ▸ hzero⟩
  · rintro ⟨hcode, hzero⟩
    exact ⟨h.region.trans hcode, hdepth.trans hzero⟩

theorem Fresh.run_atTop_iff {s : Scan} (h : s.Fresh) (cs : List Char) :
    (s.run cs).AtTop ↔ (initial.run cs).AtTop :=
  (Alike.run h cs).atTop_iff

/-- Behind an inert character at the top level a scan starts anew, but for the `=` of an arrow. -/
theorem AtTop.fresh_step {s : Scan} (h : s.AtTop) {c : Char} (hc : isInert c = true)
    (harrow : c ≠ '=') : (s.step c).Fresh := by
  rw [step_of_isInert h.code hc, h.depth]
  exact ⟨rfl, rfl, iff_of_false harrow (by decide)⟩

end Scan

theorem isInert_of_isBlank {c : Char} (h : isBlank c = true) : isInert c = true := by
  have hne : ∀ d : Char, isBlank d = false → c ≠ d := by
    rintro d hd rfl
    exact absurd h (by rw [hd]; decide)
  simp [isInert, isQuote, opens, hne '"' (by decide), hne '\x27' (by decide),
    hne '\x60' (by decide), hne '(' (by decide), hne '[' (by decide), hne '{' (by decide),
    hne '<' (by decide), hne ')' (by decide), hne ']' (by decide), hne '}' (by decide),
    hne '>' (by decide)]

/-! ## Blanks around a piece -/

namespace Scan

theorem AtTop.fresh_step_blank {s : Scan} (h : s.AtTop) {c : Char} (hc : isBlank c = true) :
    (s.step c).Fresh := by
  refine h.fresh_step (isInert_of_isBlank hc) ?_
  rintro rfl
  exact absurd hc (by decide)

theorem Fresh.run_blank {s : Scan} (h : s.Fresh) {ws : List Char} (hws : allBlank ws = true) :
    (s.run ws).Fresh := by
  induction ws generalizing s with
  | nil => exact h
  | cons c ws ih =>
    rw [allBlank_cons_iff] at hws
    exact ih (h.atTop.fresh_step_blank hws.1) hws.2

/-- Every string literal that the scan stands in was opened by a quote. -/
def Quoting (s : Scan) : Prop :=
  ∀ quote, s.region = .quoted quote ∨ s.region = .escaped quote → isQuote quote = true

/-- A literal keeps its quote until it ends. -/
theorem Quoting.step {s : Scan} (h : s.Quoting) (c : Char) : (s.step c).Quoting := by
  intro quote hquote
  unfold Scan.step at hquote
  cases hregion : s.region with
  | code =>
    by_cases hc : isQuote c = true
    · simp only [hregion, hc, if_true, Region.quoted.injEq, reduceCtorEq, or_false] at hquote
      exact hquote ▸ hc
    · simp [hregion, hc] at hquote
  | quoted q =>
    simp only [hregion] at hquote
    split at hquote
    · simp only [reduceCtorEq, Region.escaped.injEq, false_or] at hquote
      exact hquote ▸ h q (Or.inl hregion)
    · split at hquote
      · simp at hquote
      · exact h quote hquote
  | escaped q =>
    simp only [hregion, Region.quoted.injEq, reduceCtorEq, or_false] at hquote
    exact hquote ▸ h q (Or.inr hregion)

theorem quoting_run (cs : List Char) : (initial.run cs).Quoting := by
  induction cs using List.reverseRecOn with
  | nil => simp [Quoting, initial]
  | append_singleton cs c ih =>
    rw [run_append]
    exact ih.step c

/-- Blanks neither close a bracket nor a string literal. -/
theorem atTop_of_step_blank {s : Scan} (hs : s.Quoting) {c : Char} (hc : isBlank c = true)
    (h : (s.step c).AtTop) : s.AtTop := by
  have hinert := isInert_of_isBlank hc
  cases hregion : s.region with
  | code =>
    rw [step_of_isInert hregion hinert] at h
    exact ⟨hregion, h.depth⟩
  | quoted quote =>
    -- the literal stays open: a blank is no quote
    have hne : c ≠ quote := by
      rintro rfl
      have hquote := hs c (Or.inl hregion)
      simp [isInert, hquote] at hinert
    have hcode := h.code
    unfold Scan.step at hcode
    simp only [hregion, if_neg hne] at hcode
    split at hcode
    · simp at hcode
    · simp [hregion] at hcode
  | escaped quote =>
    have hcode := h.code
    simp [Scan.step, hregion] at hcode

theorem atTop_of_run_blank {cs ws : List Char} (hws : allBlank ws = true)
    (h : (initial.run (cs ++ ws)).AtTop) : (initial.run cs).AtTop := by
  induction ws using List.reverseRecOn with
  | nil => rwa [List.append_nil] at h
  | append_singleton ws c ih =>
    rw [allBlank_append, Bool.and_eq_true] at hws
    refine ih hws.1 (atTop_of_step_blank (quoting_run _) (by simpa [allBlank] using hws.2) ?_)
    rwa [← List.append_assoc, run_append] at h

end Scan

theorem FreeOf.of_append_left {c : Char} {xs ys : List Char} (h : FreeOf c (xs ++ ys)) :
    FreeOf c xs := by
  intro m hm
  refine h m ?_
  rw [marks, marksFrom_append]
  exact List.mem_append_left _ hm

/-- What stands behind blanks is read as at the start of a text. -/
theorem FreeOf.of_blank_append {c : Char} {ws cs : List Char} (hws : allBlank ws = true)
    (h : FreeOf c (ws ++ cs)) : FreeOf c cs := by
  intro m hm hdepth
  have hfresh : Scan.initial.Alike 0 (Scan.initial.run ws) :=
    Scan.fresh_initial.run_blank hws
  refine h (m.shift ws.length 0) ?_ (by simp [Mark.shift, hdepth])
  rw [marks, marksFrom_append, marksFrom_alike hfresh]
  exact List.mem_append_right _ (List.mem_map_of_mem hm)

theorem FreeOf.trim {c : Char} {cs : List Char} (h : FreeOf c cs) : FreeOf c (trim cs) := by
  obtain ⟨lead, trail, hcs, hlead, -⟩ := exists_eq_append_trim cs
  rw [hcs] at h
  exact h.of_append_left.of_blank_append hlead

theorem Scan.atTop_trim {cs : List Char} (h : (initial.run cs).AtTop) :
    (initial.run (trim cs)).AtTop := by
  obtain ⟨lead, trail, hcs, hlead, htrail⟩ := exists_eq_append_trim cs
  have hfresh : (initial.run lead).Fresh := fresh_initial.run_blank hlead
  rw [hcs] at h
  rw [← hfresh.run_atTop_iff, ← run_append]
  exact atTop_of_run_blank htrail h

/-! ## The first comma -/

/-- A text has no comma at its top level, or it can be cut at the first one. -/
theorem exists_first_comma (s : Scan) (index : Nat) (cs : List Char) :
    (∀ m ∈ marksFrom s index cs, m.depth = 0 → m.char ≠ ',') ∨
      ∃ xs rest, cs = xs ++ ',' :: rest ∧
        (∀ m ∈ marksFrom s index xs, m.depth = 0 → m.char ≠ ',') ∧ (s.run xs).AtTop := by
  induction cs generalizing s index with
  | nil => exact Or.inl (by simp [marksFrom])
  | cons c cs ih =>
    by_cases hcomma : s.isCode c = true ∧ s.depth = 0 ∧ c = ','
    · obtain ⟨hcode, hdepth, rfl⟩ := hcomma
      have hregion : s.region = .code := by
        rw [Scan.isCode, Bool.and_eq_true, beq_iff_eq] at hcode
        exact hcode.1
      exact Or.inr ⟨[], cs, rfl, by simp [marksFrom], hregion, hdepth⟩
    · -- the first character is no such comma, so the rest decides
      have hcons : ∀ ys, (∀ m ∈ marksFrom (s.step c) (index + 1) ys, m.depth = 0 → m.char ≠ ',') →
          ∀ m ∈ marksFrom s index (c :: ys), m.depth = 0 → m.char ≠ ',' := by
        intro ys hys m hm hdepth
        rw [marksFrom] at hm
        split at hm
        · rename_i hcode
          rcases List.mem_cons.mp hm with rfl | hm
          · exact fun hc => hcomma ⟨hcode, hdepth, hc⟩
          · exact hys m hm hdepth
        · exact hys m hm hdepth
      rcases ih (s.step c) (index + 1) with hfree | ⟨xs, rest, rfl, hfree, htop⟩
      · exact Or.inl (hcons cs hfree)
      · exact Or.inr ⟨c :: xs, rest, rfl, hcons xs hfree, htop⟩

/-- Induction over the commas at the top level of a text. -/
theorem comma_induction {motive : List Char → Prop}
    (last : ∀ cs, FreeOf ',' cs → motive cs)
    (comma : ∀ cs rest, FreeOf ',' cs → (Scan.initial.run cs).AtTop → motive rest →
      motive (cs ++ ',' :: rest)) (cs : List Char) : motive cs := by
  induction hlen : cs.length using Nat.strong_induction_on generalizing cs with
  | _ n ih =>
    rcases exists_first_comma Scan.initial 0 cs with hfree | ⟨xs, rest, rfl, hfree, htop⟩
    · exact last cs hfree
    · -- the text behind the first comma is shorter
      refine comma xs rest hfree htop (ih rest.length ?_ rest rfl)
      simp only [List.length_append, List.length_cons] at hlen
      omega

/-! ## The pieces of a text -/

theorem piecesFrom_alike {s t : Scan} (h : s.Alike 0 t) (separator : Char) (cs : List Char) :
    piecesFrom separator t cs = piecesFrom separator s cs := by
  induction cs generalizing s t with
  | nil => rfl
  | cons c cs ih =>
    have hdepth : t.depth = s.depth := by rw [h.depth, Int.add_zero]
    have hcode : t.isCode c = s.isCode c := by rw [Scan.isCode, Scan.isCode, h.region]
    rw [piecesFrom, piecesFrom, ih (h.step c), hdepth, hcode]

theorem tidyPieces_cons (piece : List Char) (pieces : List (List Char)) :
    tidyPieces (piece :: pieces) = tidyPieces [piece] ++ tidyPieces pieces := by
  unfold tidyPieces
  rw [← List.filter_append, ← List.map_append, List.singleton_append]

theorem tidyPieces_singleton (piece : List Char) :
    tidyPieces [piece] = if trim piece = [] then [] else [trim piece] := by
  by_cases hnil : trim piece = [] <;> simp [tidyPieces, hnil]

theorem topLevelPieces_of_freeOf {cs : List Char} (h : FreeOf ',' cs) :
    topLevelPieces ',' cs = tidyPieces [cs] := by
  have hpieces := piecesFrom_append h []
  rw [List.append_nil, piecesFrom, List.modifyHead_cons, List.append_nil] at hpieces
  rw [topLevelPieces, hpieces]

theorem topLevelPieces_comma {cs : List Char} (hfree : FreeOf ',' cs)
    (htop : (Scan.initial.run cs).AtTop) (rest : List Char) :
    topLevelPieces ',' (cs ++ ',' :: rest) = tidyPieces [cs] ++ topLevelPieces ',' rest := by
  have hsep : ((Scan.initial.run cs).isCode ',' && ',' == ',' &&
      (Scan.initial.run cs).depth == 0) = true := by
    simp [Scan.isCode, htop.code, htop.depth, show isQuote ',' = false by decide]
  have hfresh : Scan.initial.Alike 0 ((Scan.initial.run cs).step ',') :=
    htop.fresh_step (by decide) (by decide)
  rw [topLevelPieces, piecesFrom_append hfree, piecesFrom, if_pos hsep, List.modifyHead_cons,
    List.append_nil, piecesFrom_alike hfresh, tidyPieces_cons, topLevelPieces]

/-- The blank behind a comma goes with the blanks around the next piece. -/
theorem topLevelPieces_space (cs : List Char) :
    topLevelPieces ',' (' ' :: cs) = topLevelPieces ',' cs := by
  have hfree : FreeOf ',' [' '] := by decide
  have hfresh : Scan.initial.Alike 0 (Scan.initial.run [' ']) :=
    Scan.fresh_initial.run_blank (by decide)
  have hpieces := piecesFrom_append hfree cs
  rw [piecesFrom_alike hfresh] at hpieces
  cases hcs : piecesFrom ',' Scan.initial cs with
  | nil => exact absurd hcs (piecesFrom_ne_nil _ _ _)
  | cons piece pieces =>
    rw [hcs, List.modifyHead_cons] at hpieces
    rw [topLevelPieces, topLevelPieces, hcs, show ' ' :: cs = [' '] ++ cs from rfl, hpieces]
    rfl

/-- **Splitting what was joined.** Texts without commas at their top level are the pieces of the
list that has commas between them, if each but the last ends at the top level. -/
theorem topLevelPieces_join {texts : List (List Char)}
    (hfree : ∀ text ∈ texts, FreeOf ',' text ∧ trim text ≠ [])
    (htop : ∀ text ∈ texts.dropLast, (Scan.initial.run text).AtTop) :
    topLevelPieces ',' ([',', ' '].intercalate texts) = texts.map trim := by
  induction texts with
  | nil => rfl
  | cons text texts ih =>
    obtain ⟨htext, hne⟩ := hfree text List.mem_cons_self
    have hsingle : tidyPieces [text] = [trim text] := by rw [tidyPieces_singleton, if_neg hne]
    cases texts with
    | nil => rw [List.intercalate_singleton, topLevelPieces_of_freeOf htext, hsingle]; rfl
    | cons next texts =>
      have hrest := ih (fun t ht => hfree t (List.mem_cons_of_mem _ ht))
        (fun t ht => htop t (List.mem_cons_of_mem _ ht))
      have hjoin : [',', ' '].intercalate (text :: next :: texts) =
          text ++ ',' :: ' ' :: [',', ' '].intercalate (next :: texts) := by
        rw [List.intercalate_cons_cons, List.append_assoc]
        rfl
      rw [hjoin, topLevelPieces_comma htext (htop text List.mem_cons_self), topLevelPieces_space,
        hrest, hsingle]
      rfl

theorem topLevelPieces_intercalate {texts : List (List Char)}
    (h : ∀ text ∈ texts, IsPiece text ∧ trim text ≠ []) :
    topLevelPieces ',' ([',', ' '].intercalate texts) = texts.map trim := by
  refine topLevelPieces_join (fun text htext => ⟨(h text htext).1.free, (h text htext).2⟩) ?_
  intro text htext
  have hclosed := (h text (List.dropLast_subset _ htext)).1.closed
  exact ⟨hclosed.code, hclosed.depth⟩

/-- A piece as a split leaves it. -/
structure IsTidy (piece : List Char) : Prop where
  nonempty : piece ≠ []
  trimmed : trim piece = piece
  free : FreeOf ',' piece

theorem mem_tidyPieces_singleton {piece cs : List Char} :
    piece ∈ tidyPieces [cs] ↔ piece = trim cs ∧ trim cs ≠ [] := by
  rw [tidyPieces_singleton]
  by_cases hnil : trim cs = [] <;> simp [hnil]

theorem FreeOf.isTidy {piece cs : List Char} (h : FreeOf ',' cs)
    (hpiece : piece ∈ tidyPieces [cs]) : IsTidy piece := by
  obtain ⟨rfl, hne⟩ := mem_tidyPieces_singleton.mp hpiece
  exact ⟨hne, trim_trim cs, h.trim⟩

theorem isTidy_of_mem_topLevelPieces {piece cs : List Char} (h : piece ∈ topLevelPieces ',' cs) :
    IsTidy piece := by
  induction cs using comma_induction with
  | last cs hfree =>
    rw [topLevelPieces_of_freeOf hfree] at h
    exact hfree.isTidy h
  | comma cs rest hfree htop ih =>
    rw [topLevelPieces_comma hfree htop] at h
    rcases List.mem_append.mp h with h | h
    · exact hfree.isTidy h
    · exact ih h

/-- Every piece but the last ends where the comma behind it stands. -/
theorem atTop_of_mem_dropLast {piece cs : List Char}
    (h : piece ∈ (topLevelPieces ',' cs).dropLast) : (Scan.initial.run piece).AtTop := by
  induction cs using comma_induction with
  | last cs hfree =>
    rw [topLevelPieces_of_freeOf hfree, tidyPieces_singleton] at h
    split at h <;> exact absurd h (by simp)
  | comma cs rest hfree htop ih =>
    have hfirst : ∀ p ∈ tidyPieces [cs], (Scan.initial.run p).AtTop := by
      intro p hp
      obtain ⟨rfl, -⟩ := mem_tidyPieces_singleton.mp hp
      exact Scan.atTop_trim htop
    rw [topLevelPieces_comma hfree htop, List.dropLast_append] at h
    split at h
    · exact hfirst piece (List.dropLast_subset _ h)
    · rcases List.mem_append.mp h with h | h
      · exact hfirst piece h
      · exact ih h

theorem IsTidy.topLevelPieces_eq {piece : List Char} (h : IsTidy piece) :
    topLevelPieces ',' piece = [piece] := by
  rw [topLevelPieces_of_freeOf h.free, tidyPieces_singleton, h.trimmed, if_neg h.nonempty]

theorem topLevelPieces_join_topLevelPieces (cs : List Char) :
    topLevelPieces ',' ([',', ' '].intercalate (topLevelPieces ',' cs)) =
      topLevelPieces ',' cs := by
  have htidy : ∀ piece ∈ topLevelPieces ',' cs, IsTidy piece :=
    fun _ => isTidy_of_mem_topLevelPieces
  have htrim : (topLevelPieces ',' cs).map trim = topLevelPieces ',' cs :=
    (List.map_congr_left fun piece hpiece => (htidy piece hpiece).trimmed).trans (List.map_id _)
  rw [topLevelPieces_join _ fun _ => atTop_of_mem_dropLast, htrim]
  intro piece hpiece
  have h := htidy piece hpiece
  exact ⟨h.free, h.trimmed.symm ▸ h.nonempty⟩

/-! ## What stands between the pieces -/

/-- The text, read in state `s`, is the pieces in their order, and around them nothing but blanks
and commas outside brackets and string literals. A blank in front of a piece stands outside them as
well; behind the last piece it may stand in what the text leaves open. -/
inductive SpacedFrom : Scan → List Char → List (List Char) → Prop
  | done {s : Scan} : SpacedFrom s [] []
  | blank {s : Scan} {c : Char} {cs : List Char} {pieces : List (List Char)}
      (hc : isBlank c = true) (htop : pieces ≠ [] → s.AtTop)
      (hrest : SpacedFrom (s.step c) cs pieces) : SpacedFrom s (c :: cs) pieces
  | comma {s : Scan} {cs : List Char} {pieces : List (List Char)} (htop : s.AtTop)
      (hrest : SpacedFrom (s.step ',') cs pieces) : SpacedFrom s (',' :: cs) pieces
  | piece {s : Scan} {piece cs : List Char} {pieces : List (List Char)}
      (hrest : SpacedFrom (s.run piece) cs pieces) : SpacedFrom s (piece ++ cs) (piece :: pieces)

namespace SpacedFrom

variable {s : Scan} {ws cs : List Char} {pieces : List (List Char)}

theorem of_allBlank (hws : allBlank ws = true) : SpacedFrom s ws [] := by
  induction ws generalizing s with
  | nil => exact .done
  | cons c ws ih =>
    rw [allBlank_cons_iff] at hws
    exact .blank hws.1 (absurd rfl) (ih hws.2)

theorem blank_append (hs : s.AtTop) (hws : allBlank ws = true)
    (h : SpacedFrom (s.run ws) cs pieces) : SpacedFrom s (ws ++ cs) pieces := by
  induction ws generalizing s with
  | nil => exact h
  | cons c ws ih =>
    rw [allBlank_cons_iff] at hws
    exact .blank hws.1 (fun _ => hs) (ih (hs.fresh_step_blank hws.1).atTop hws.2 h)

/-- A text that ends at the top level is its trimmed piece, if there is one, between blanks. -/
theorem tidy_append (hs : s.Fresh) (htop : (s.run cs).AtTop) {rest : List Char}
    (h : SpacedFrom (s.run cs) rest pieces) :
    SpacedFrom s (cs ++ rest) (tidyPieces [cs] ++ pieces) := by
  obtain ⟨lead, trail, hcs, hlead, htrail⟩ := exists_eq_append_trim cs
  have hinner : (s.run (lead ++ trim cs)).AtTop := by
    rw [hs.run_atTop_iff, hcs] at htop
    exact (hs.run_atTop_iff _).mpr (Scan.atTop_of_run_blank htrail htop)
  have htrailing : SpacedFrom (s.run (lead ++ trim cs)) (trail ++ rest) pieces := by
    refine blank_append hinner htrail ?_
    rw [← Scan.run_append, ← hcs]
    exact h
  rw [hcs, List.append_assoc, List.append_assoc, ← hcs, tidyPieces_singleton]
  refine blank_append hs.atTop hlead ?_
  rw [Scan.run_append] at htrailing
  split
  · rename_i hnil
    rw [hnil] at htrailing ⊢
    exact htrailing
  · exact .piece htrailing

end SpacedFrom

theorem spacedFrom_topLevelPieces {s : Scan} (hs : s.Fresh) (cs : List Char) :
    SpacedFrom s cs (topLevelPieces ',' cs) := by
  induction cs using comma_induction generalizing s with
  | last cs hfree =>
    obtain ⟨lead, trail, hcs, hlead, htrail⟩ := exists_eq_append_trim cs
    rw [topLevelPieces_of_freeOf hfree, tidyPieces_singleton]
    split
    · rename_i hnil
      refine .of_allBlank ?_
      rw [hcs, hnil, List.append_nil, allBlank_append, hlead, htrail]
      rfl
    · -- whatever the last piece leaves open, only blanks stand behind it
      have hlast : SpacedFrom (s.run lead) (trim cs ++ trail) [trim cs] :=
        .piece (.of_allBlank htrail)
      have hspaced := hlast.blank_append hs.atTop hlead
      rwa [← List.append_assoc, ← hcs] at hspaced
  | comma cs rest hfree htop ih =>
    have htop' := (hs.run_atTop_iff cs).mpr htop
    rw [topLevelPieces_comma hfree htop]
    exact .tidy_append hs htop' (.comma htop' (ih (htop'.fresh_step (by decide) (by decide))))

/-- **Splitting is stable and loses nothing.** The pieces of a text joined by commas are split into
the same pieces. Each is a trimmed text without commas at its top level, so it is a single piece of
its own. Between the pieces nothing but blanks and commas at the top level of the text is lost. -/
theorem splitCode_stable (text : String) :
    splitCode ',' (", ".intercalate (splitCode ',' text)) = splitCode ',' text ∧
      (∀ piece ∈ splitCode ',' text,
        piece ≠ "" ∧ trim piece.toList = piece.toList ∧ FreeOf ',' piece.toList ∧
          splitCode ',' piece = [piece]) ∧
      SpacedFrom Scan.initial text.toList ((splitCode ',' text).map String.toList) := by
  have hlists : (splitCode ',' text).map String.toList = topLevelPieces ',' text.toList := by
    rw [splitCode, List.map_map]
    exact List.map_id'' (fun _ => String.toList_ofList) _
  refine ⟨?_, ?_, ?_⟩
  · have hjoin : topLevelPieces ',' (", ".intercalate (splitCode ',' text)).toList =
        topLevelPieces ',' text.toList := by
      rw [String.toList_intercalate, hlists, show ", ".toList = [',', ' '] from rfl]
      exact topLevelPieces_join_topLevelPieces _
    rw [splitCode, hjoin, splitCode]
  · intro piece hpiece
    have htidy : IsTidy piece.toList := by
      have hmem : piece.toList ∈ (splitCode ',' text).map String.toList :=
        List.mem_map_of_mem hpiece
      rw [hlists] at hmem
      exact isTidy_of_mem_topLevelPieces hmem
    refine ⟨?_, htidy.trimmed, htidy.free, ?_⟩
    · rintro rfl
      exact htidy.nonempty rfl
    · rw [splitCode, htidy.topLevelPieces_eq, List.map_singleton, String.ofList_toList]
  · rw [hlists]
    exact spacedFrom_topLevelPieces Scan.fresh_initial _

/-- A bracket that is closed before it is opened keeps a comma in its piece, and what the last piece
leaves open keeps all the rest. -/
example : splitCode ',' "a), b(, [c, d], \"e, f " = ["a), b(", "[c, d]", "\"e, f"] := by decide

end Assist.Signature
