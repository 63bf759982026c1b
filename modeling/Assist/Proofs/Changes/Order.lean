import Assist.Extraction.Change

/-!
# The order of changes

Changes are applied in the order of their starts, and those that start together in the order of the
list. Putting one more change in front of a list puts it before all that start where it does or
later (`sortChanges_cons`), so facts about the sorted list go by induction on the list and sorting
can be computed by insertion (`sortChanges_eq_foldr`). Seen from one change of a list, the changes
sorted before it are those listed earlier that start no later and those listed later that start
earlier (`sortChanges_split`). `lastFirst` is the order from the last place of a file to the first.
-/

namespace Assist.Extraction

open Assist.Text

namespace Change

/-- Where a change starts. -/
def start (change : Change) : Nat := change.span.start.toNat

/-- Where the text that a change replaces ends. -/
def stop (change : Change) : Nat := change.span.start.toNat + change.span.length.toNat

theorem start_le_stop (change : Change) : change.start ≤ change.stop := Nat.le_add_right _ _

/-- The end of a change is an offset exactly if it is not past the largest one. -/
theorem stop?_eq_some_iff {change : Change} {stop : Offset} :
    change.span.stop? = some stop ↔ change.stop ≤ maxOffset ∧ stop.toNat = change.stop := by
  unfold Span.stop? Change.stop
  by_cases hfit : change.span.start.toNat + change.span.length.toNat ≤ maxOffset
  · have hlt : change.span.start.toNat + change.span.length.toNat < UInt32.size := by
      simp only [maxOffset] at hfit
      simp only [UInt32.size]
      omega
    rw [if_pos hfit, Option.some.injEq, ← UInt32.toNat_inj, UInt32.toNat_ofNat_of_lt' hlt]
    exact ⟨fun h => ⟨hfit, h.symm⟩, fun h => h.2.symm⟩
  · rw [if_neg hfit]
    exact ⟨fun h => absurd h (by simp), fun h => absurd h.1 hfit⟩

/-- An insertion ends where it starts. -/
theorem isEmpty_iff {change : Change} :
    change.span.isEmpty = true ↔ change.stop = change.start := by
  unfold Span.isEmpty Change.start Change.stop
  rw [beq_iff_eq, ← UInt32.toNat_inj]
  show change.span.length.toNat = 0 ↔ _
  omega

/-- Strictly inside a change is between its start and its end. -/
theorem strictlyContains_iff {change : Change} (hfit : change.stop ≤ maxOffset)
    {offset : Offset} :
    change.span.strictlyContains offset = true ↔
      change.start < offset.toNat ∧ offset.toNat < change.stop := by
  have hsome : change.span.stop? = some (UInt32.ofNat change.stop) := if_pos hfit
  have hstop : change.span.stop.toNat = change.stop := by
    rw [Span.stop, hsome, Option.getD_some]
    exact (stop?_eq_some_iff.mp hsome).2
  rw [Span.strictlyContains, Bool.and_eq_true, decide_eq_true_eq, decide_eq_true_eq,
    UInt32.lt_iff_toNat_lt, UInt32.lt_iff_toNat_lt, hstop, start]

end Change

/-- Whether one change starts no later than another. -/
def startsNoLater (a b : Change) : Bool := a.span.start ≤ b.span.start

theorem startsNoLater_iff {a b : Change} : startsNoLater a b = true ↔ a.start ≤ b.start := by
  unfold startsNoLater Change.start
  rw [decide_eq_true_eq, UInt32.le_iff_toNat_le]

theorem startsNoLater_trans (a b c : Change) (hab : startsNoLater a b = true)
    (hbc : startsNoLater b c = true) : startsNoLater a c = true := by
  rw [startsNoLater_iff] at hab hbc ⊢
  omega

theorem startsNoLater_total (a b : Change) : (startsNoLater a b || startsNoLater b a) = true := by
  rw [Bool.or_eq_true, startsNoLater_iff, startsNoLater_iff]
  omega

theorem sortChanges_eq (changes : List Change) :
    sortChanges changes = changes.mergeSort startsNoLater := rfl

@[simp] theorem sortChanges_nil : sortChanges [] = [] := by simp [sortChanges]

theorem sortChanges_perm (changes : List Change) : (sortChanges changes).Perm changes :=
  List.mergeSort_perm changes _

theorem mem_sortChanges {change : Change} {changes : List Change} :
    change ∈ sortChanges changes ↔ change ∈ changes := (sortChanges_perm changes).mem_iff

/-- The sorted changes are in the order of their starts. -/
theorem sortChanges_pairwise (changes : List Change) :
    (sortChanges changes).Pairwise fun a b => a.start ≤ b.start := by
  have h := List.pairwise_mergeSort startsNoLater_trans startsNoLater_total changes
  exact h.imp startsNoLater_iff.mp

/-- A change in front of a list is sorted behind those that start before it and ahead of the
others. -/
theorem sortChanges_cons (change : Change) (changes : List Change) :
    ∃ before after, sortChanges (change :: changes) = before ++ change :: after ∧
      sortChanges changes = before ++ after ∧ (∀ b ∈ before, b.start < change.start) ∧
      ∀ a ∈ after, change.start ≤ a.start := by
  obtain ⟨before, after, hcons, hrest, hbefore⟩ :=
    List.mergeSort_cons startsNoLater_trans startsNoLater_total change changes
  have hsorted := sortChanges_pairwise (change :: changes)
  rw [sortChanges_eq, hcons, List.pairwise_append] at hsorted
  refine ⟨before, after, hcons, hrest, fun b hb => ?_, (List.pairwise_cons.mp hsorted.2.1).1⟩
  have hlt := hbefore b hb
  rw [Bool.not_eq_true', ← Bool.not_eq_true, startsNoLater_iff] at hlt
  omega

/-- Put a change before the first one that starts where it does or later. -/
def insertChange (change : Change) : List Change → List Change
  | [] => [change]
  | c :: changes =>
    if change.start ≤ c.start then change :: c :: changes else c :: insertChange change changes

theorem insertChange_append {change : Change} {before after : List Change}
    (hbefore : ∀ b ∈ before, b.start < change.start)
    (hafter : ∀ a ∈ after, change.start ≤ a.start) :
    insertChange change (before ++ after) = before ++ change :: after := by
  induction before with
  | nil =>
    cases after with
    | nil => rfl
    | cons a after => exact if_pos (hafter a (by simp))
  | cons b before ih =>
    have hb : ¬ change.start ≤ b.start := by
      have := hbefore b (by simp)
      omega
    rw [List.cons_append, insertChange, if_neg hb, ih (fun c hc => hbefore c (by simp [hc]))]
    rfl

/-- Changes are sorted by inserting one after the other, from the end of the list. -/
theorem sortChanges_eq_foldr (changes : List Change) :
    sortChanges changes = changes.foldr insertChange [] := by
  induction changes with
  | nil => exact sortChanges_nil
  | cons change changes ih =>
    obtain ⟨before, after, hcons, hrest, hbefore, hafter⟩ := sortChanges_cons change changes
    rw [List.foldr_cons, ← ih, hcons, hrest, insertChange_append hbefore hafter]

/-- The changes that are applied before `change` in the list `earlier ++ change :: later`. -/
def placedBefore (earlier : List Change) (change : Change) (later : List Change) : List Change :=
  earlier.filter (fun e => e.start ≤ change.start) ++ later.filter fun l => l.start < change.start

/-- **The place of one change.** It is sorted behind the changes of `placedBefore`. -/
theorem sortChanges_split (earlier : List Change) (change : Change) (later : List Change) :
    ∃ before after, sortChanges (earlier ++ change :: later) = before ++ change :: after ∧
      before.Perm (placedBefore earlier change later) := by
  induction earlier with
  | nil =>
    obtain ⟨before, after, hsort, hlater, hbefore, hafter⟩ := sortChanges_cons change later
    refine ⟨before, after, hsort, ?_⟩
    have hfilter : (sortChanges later).filter (fun l => l.start < change.start) = before := by
      rw [hlater, List.filter_append, List.filter_eq_self.mpr (by simpa using hbefore),
        List.filter_eq_nil_iff.mpr (by simpa using hafter), List.append_nil]
    rw [← hfilter]
    exact (sortChanges_perm later).filter _
  | cons e earlier ih =>
    obtain ⟨before, after, hsort, hperm⟩ := ih
    obtain ⟨front, back, hcons, hrest, hfront, hback⟩ :=
      sortChanges_cons e (earlier ++ change :: later)
    rw [hsort] at hrest
    -- `e` comes to stand either ahead of `change` or behind it
    rcases List.append_eq_append_iff.mp hrest.symm with ⟨ms, hbefore, hms⟩ | ⟨ms, hfr, hms⟩
    · refine ⟨front ++ e :: ms, after, ?_, ?_⟩
      · rw [List.cons_append, hcons, hms]
        simp
      · have hle : e.start ≤ change.start := hback change (by rw [hms]; simp)
        rw [hbefore] at hperm
        simp only [placedBefore, List.filter_cons, hle, decide_true, if_true, List.cons_append]
        exact List.perm_middle.trans (hperm.cons e)
    · cases ms with
      | nil =>
        refine ⟨before ++ [e], after, ?_, ?_⟩
        · simp only [List.append_nil, List.nil_append] at hfr hms
          rw [List.cons_append, hcons, hfr, ← hms]
          simp
        · have hle : e.start ≤ change.start := by
            rw [List.nil_append] at hms
            exact hback change (by rw [← hms]; simp)
          simp only [placedBefore, List.filter_cons, hle, decide_true, if_true, List.cons_append]
          exact List.perm_append_comm.trans (hperm.cons e)
      | cons m ms =>
        simp only [List.cons_append, List.cons.injEq] at hms
        obtain ⟨rfl, hafter⟩ := hms
        refine ⟨before, ms ++ e :: back, ?_, ?_⟩
        · rw [List.cons_append, hcons, hfr]
          simp
        · have hlt : ¬ e.start ≤ change.start := by
            have := hfront change (by rw [hfr]; simp)
            omega
          simpa [placedBefore, List.filter_cons, hlt] using hperm

/-! ## From the last place to the first -/

/-- Whether a change of a list is later in the file than another one: it starts later, or it starts
at the same place and stands later in the list. -/
def laterFirst (a b : Change × Nat) : Bool :=
  b.1.start < a.1.start || (b.1.start == a.1.start && b.2 ≤ a.2)

/-- The changes in decreasing order of their start and their place in the list. -/
def lastFirst (changes : List Change) : List Change :=
  (changes.zipIdx.mergeSort laterFirst).map Prod.fst

theorem laterFirst_iff {a b : Change × Nat} :
    laterFirst a b = true ↔ List.zipIdxLE startsNoLater b a = true := by
  unfold laterFirst List.zipIdxLE
  rw [Bool.or_eq_true, Bool.and_eq_true, decide_eq_true_eq, beq_iff_eq, decide_eq_true_eq]
  have h1 := startsNoLater_iff (a := a.1) (b := b.1)
  have h2 := startsNoLater_iff (a := b.1) (b := a.1)
  by_cases hba : b.1.start ≤ a.1.start
  · rw [if_pos (h2.mpr hba)]
    by_cases hab : a.1.start ≤ b.1.start
    · rw [if_pos (h1.mpr hab), decide_eq_true_eq]
      omega
    · rw [if_neg (fun h => hab (h1.mp h))]
      simp only [iff_true]
      omega
  · rw [if_neg (fun h => hba (h2.mp h))]
    simp only [Bool.false_eq_true, iff_false]
    omega

/-- Two changes of a list of which neither is later in the file are one and the same. -/
theorem laterFirst_antisymm {changes : List Change} {a b : Change × Nat}
    (ha : a ∈ changes.zipIdx) (hb : b ∈ changes.zipIdx) (hab : laterFirst a b = true)
    (hba : laterFirst b a = true) : a = b := by
  simp only [laterFirst, Bool.or_eq_true, Bool.and_eq_true, decide_eq_true_eq, beq_iff_eq]
    at hab hba
  have hplace : a.2 = b.2 := by omega
  rw [List.mem_zipIdx_iff_getElem?] at ha hb
  rw [hplace, hb] at ha
  exact Prod.ext (Option.some.inj ha).symm hplace

/-- The order from the last place to the first is the order of application from its end. -/
theorem lastFirst_eq (changes : List Change) :
    lastFirst changes = (sortChanges changes).reverse := by
  -- both sides are `changes` with their places, decreasing for `laterFirst`
  have hplaced : (changes.zipIdx.mergeSort (List.zipIdxLE startsNoLater)).reverse.Pairwise
      fun a b => laterFirst a b = true := by
    rw [List.pairwise_reverse]
    exact (List.pairwise_mergeSort (List.zipIdxLE_trans startsNoLater_trans)
      (List.zipIdxLE_total startsNoLater_total) _).imp laterFirst_iff.mpr
  have hlater : (changes.zipIdx.mergeSort laterFirst).Pairwise
      fun a b => laterFirst a b = true := by
    refine List.pairwise_mergeSort (fun a b c hab hbc => ?_) (fun a b => ?_) _
    · rw [laterFirst_iff] at hab hbc ⊢
      exact List.zipIdxLE_trans startsNoLater_trans _ _ _ hbc hab
    · rw [Bool.or_eq_true, laterFirst_iff, laterFirst_iff, ← Bool.or_eq_true]
      exact List.zipIdxLE_total startsNoLater_total b a
  have hperm : (changes.zipIdx.mergeSort laterFirst).Perm
      (changes.zipIdx.mergeSort (List.zipIdxLE startsNoLater)).reverse :=
    (List.mergeSort_perm _ _).trans
      ((List.mergeSort_perm _ _).symm.trans (List.reverse_perm _).symm)
  have heq := hperm.eq_of_pairwise (fun a b ha hb hab hba => laterFirst_antisymm
    (List.mem_mergeSort.mp ha) (List.mem_mergeSort.mp (List.mem_reverse.mp hb)) hab hba)
    hlater hplaced
  rw [lastFirst, heq, List.map_reverse, List.mergeSort_zipIdx, sortChanges_eq]

end Assist.Extraction
