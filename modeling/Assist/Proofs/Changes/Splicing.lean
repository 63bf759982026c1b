import Assist.Proofs.Changes.Order
import Assist.Proofs.Text.Cut
import Mathlib.Data.Option.Basic

/-!
# Applying changes is splicing one after the other

`applyChanges?` goes through a file once with a cursor. Here it is compared with the plain way to
edit a file, `spliceAll?`: replace the bytes of one change after the other, from the last place of
the file to the first, so that no change moves the place of one that is still to come. The two give
the same text, and changes can be applied exactly if they are `Applicable`: each lies in the file
between two boundaries, and of every two one ends before the other starts.

Everything about the cursor comes from `applyFrom?_cons_eq_some_iff`, which says what one step of
the pass does.
-/

namespace Assist.Extraction

open Assist.Text

/-- The text with the bytes of one change replaced. -/
def Change.splice? (change : Change) (text : List Char) : Option (List Char) := do
  let (before, tail) ← cut? change.start text
  let (_, after) ← cut? change.span.length.toNat tail
  return before ++ change.newText.toList ++ after

/-- The text with the changes made one after the other, from the last place to the first. -/
def spliceAll? (text : List Char) (changes : List Change) : Option (List Char) :=
  (lastFirst changes).foldlM (fun text change => change.splice? text) text

/-- Of two changes of a list, the one that starts first ends before the other starts. If both start
at one place, that is the one listed first. -/
def Apart (a b : Change) : Prop :=
  if a.start ≤ b.start then a.stop ≤ b.start else b.stop ≤ a.start

instance (a b : Change) : Decidable (Apart a b) :=
  inferInstanceAs (Decidable (if a.start ≤ b.start then a.stop ≤ b.start else b.stop ≤ a.start))

/-- The changes can be applied to the text. -/
structure Applicable (text : List Char) (changes : List Change) : Prop where
  fits : ∀ change ∈ changes, change.stop ≤ maxOffset
  starts : ∀ change ∈ changes, isBoundary change.start text = true
  stops : ∀ change ∈ changes, isBoundary change.stop text = true
  apart : changes.Pairwise Apart

instance (text : List Char) (changes : List Change) : Decidable (Applicable text changes) :=
  decidable_of_iff ((∀ change ∈ changes, change.stop ≤ maxOffset ∧
      isBoundary change.start text = true ∧ isBoundary change.stop text = true) ∧
      changes.Pairwise Apart)
    ⟨fun ⟨h, hapart⟩ => ⟨fun c hc => (h c hc).1, fun c hc => (h c hc).2.1,
      fun c hc => (h c hc).2.2, hapart⟩,
      fun h => ⟨fun c hc => ⟨h.fits c hc, h.starts c hc, h.stops c hc⟩, h.apart⟩⟩

/-! ## One step of the pass -/

/-- **One step of the pass**: what stands before the change is kept, what it replaces goes, and the
pass goes on behind it. -/
theorem applyFrom?_cons_eq_some_iff {cursor : Nat} {text out : List Char} {change : Change}
    {changes : List Change} :
    applyFrom? cursor text (change :: changes) = some out ↔
      ∃ kept old rest tail, text = kept ++ old ++ rest ∧ cursor + byteLen kept = change.start ∧
        change.start + byteLen old = change.stop ∧ change.stop ≤ maxOffset ∧
        applyFrom? change.stop rest changes = some tail ∧
        out = kept ++ change.newText.toList ++ tail := by
  constructor
  · intro h
    simp only [applyFrom?, Option.bind_eq_bind, Option.bind_eq_some_iff, Option.pure_def,
      Option.some.injEq, Prod.exists] at h
    obtain ⟨stop, hstop, _, hguard, kept, mid, hkept, old, rest, hold, tail, htail, rfl⟩ := h
    obtain ⟨hfit, hstop⟩ := Change.stop?_eq_some_iff.mp hstop
    obtain ⟨rfl, hkeptLen⟩ := eq_append_of_cut? hkept
    obtain ⟨rfl, holdLen⟩ := eq_append_of_cut? hold
    have hcursor : cursor ≤ change.span.start.toNat := (Option.guard_eq_some' _).mp hguard
    rw [hstop] at htail
    refine ⟨kept, old, rest, tail, by simp, ?_, ?_, hfit, htail, rfl⟩
    · unfold Change.start
      omega
    · unfold Change.start Change.stop
      omega
  · rintro ⟨kept, old, rest, tail, rfl, hkept, hold, hfit, htail, rfl⟩
    have hstop : change.span.stop? = some (UInt32.ofNat change.stop) := if_pos hfit
    have hstopNat : (UInt32.ofNat change.stop).toNat = change.stop :=
      (Change.stop?_eq_some_iff.mp hstop).2
    have hstart : change.span.start.toNat - cursor = byteLen kept := by
      unfold Change.start at hkept
      omega
    have hlength : change.span.length.toNat = byteLen old := by
      unfold Change.start Change.stop at hold
      omega
    have hcursor : cursor ≤ change.span.start.toNat := by
      unfold Change.start at hkept
      omega
    simp [applyFrom?, hstop, hstopNat, hstart, hlength, hcursor, cut?_append, htail, guard]

/-! ## Which changes are accepted -/

/-- The pass over changes in their order goes through exactly if every change starts at or after
the cursor, lies between boundaries and ends before the next one starts. -/
theorem applyFrom?_isSome_iff (done text : List Char) (changes : List Change) :
    (applyFrom? (byteLen done) text changes).isSome = true ↔
      (∀ change ∈ changes, byteLen done ≤ change.start ∧ change.stop ≤ maxOffset ∧
        isBoundary change.start (done ++ text) = true ∧
        isBoundary change.stop (done ++ text) = true) ∧
      changes.Pairwise fun a b => a.stop ≤ b.start := by
  induction changes generalizing done text with
  | nil => simp [applyFrom?]
  | cons change changes ih =>
    rw [List.pairwise_cons, Option.isSome_iff_exists]
    constructor
    · rintro ⟨out, hout⟩
      obtain ⟨kept, old, rest, tail, rfl, hkept, hold, hfit, htail, -⟩ :=
        applyFrom?_cons_eq_some_iff.mp hout
      have hdone : byteLen (done ++ kept ++ old) = change.stop := by simp; omega
      have hrest : (applyFrom? (byteLen (done ++ kept ++ old)) rest changes).isSome = true := by
        rw [hdone, htail]
        rfl
      obtain ⟨hall, hpair⟩ := (ih _ _).mp hrest
      have hwhole : done ++ (kept ++ old ++ rest) = done ++ kept ++ old ++ rest := by simp
      rw [hdone, ← hwhole] at hall
      refine ⟨fun c hc => ?_, fun c hc => (hall c hc).1, hpair⟩
      rcases List.mem_cons.mp hc with rfl | hc
      · refine ⟨by omega, hfit, ?_, ?_⟩
        · exact isBoundary_iff.mpr ⟨done ++ kept, old ++ rest, by simp, by simp; omega⟩
        · exact isBoundary_iff.mpr ⟨done ++ kept ++ old, rest, hwhole, hdone⟩
      · have hc' := hall c hc
        have hle := change.start_le_stop
        exact ⟨by omega, hc'.2⟩
    · rintro ⟨hall, hnext, hpair⟩
      obtain ⟨hcursor, hfit, hstart, hstop⟩ := hall change (by simp)
      obtain ⟨n, hn⟩ := Nat.exists_eq_add_of_le hcursor
      obtain ⟨k, hk⟩ := Nat.exists_eq_add_of_le change.start_le_stop
      rw [hn, isBoundary_append, isBoundary_iff] at hstart
      obtain ⟨kept, mid, rfl, hkept⟩ := hstart
      have hfront : byteLen (done ++ kept) = change.start := by simp; omega
      rw [hk, ← hfront, ← List.append_assoc, isBoundary_append, isBoundary_iff] at hstop
      obtain ⟨old, rest, rfl, hold⟩ := hstop
      have hdone : byteLen (done ++ kept ++ old) = change.stop := by simp; omega
      have hwhole : done ++ (kept ++ (old ++ rest)) = done ++ kept ++ old ++ rest := by simp
      have hrest : (applyFrom? (byteLen (done ++ kept ++ old)) rest changes).isSome = true := by
        refine (ih _ _).mpr ⟨fun c hc => ?_, hpair⟩
        obtain ⟨-, h2, h3, h4⟩ := hall c (by simp [hc])
        rw [← hwhole, hdone]
        exact ⟨hnext c hc, h2, h3, h4⟩
      obtain ⟨tail, htail⟩ := Option.isSome_iff_exists.mp hrest
      rw [hdone] at htail
      refine ⟨_, applyFrom?_cons_eq_some_iff.mpr
        ⟨kept, old, rest, tail, by simp, by omega, by omega, hfit, htail, rfl⟩⟩

/-- Changes are apart in the list exactly if they follow one another in their order. -/
theorem pairwise_apart_iff {changes : List Change} :
    changes.Pairwise Apart ↔ (sortChanges changes).Pairwise fun a b => a.stop ≤ b.start := by
  induction changes with
  | nil => simp
  | cons change changes ih =>
    obtain ⟨before, after, hcons, hrest, hbefore, hafter⟩ := sortChanges_cons change changes
    have hmem : ∀ c, c ∈ changes ↔ c ∈ before ∨ c ∈ after := fun c => by
      rw [← mem_sortChanges, hrest, List.mem_append]
    -- before and after `change`, being apart from it says on which side the other change lies
    have hb : ∀ c ∈ before, (Apart change c ↔ c.stop ≤ change.start) := fun c hc => by
      have := hbefore c hc
      rw [Apart, if_neg (by omega)]
    have ha : ∀ c ∈ after, (Apart change c ↔ change.stop ≤ c.start) := fun c hc => by
      rw [Apart, if_pos (hafter c hc)]
    rw [List.pairwise_cons, ih, hrest, hcons, List.pairwise_append, List.pairwise_append,
      List.pairwise_cons]
    constructor
    · rintro ⟨hchange, hpb, hpa, hcross⟩
      refine ⟨hpb, ⟨fun c hc => ?_, hpa⟩, fun b hmb c hc => ?_⟩
      · exact (ha c hc).mp (hchange c ((hmem c).mpr (Or.inr hc)))
      · rcases List.mem_cons.mp hc with rfl | hc
        · exact (hb b hmb).mp (hchange b ((hmem b).mpr (Or.inl hmb)))
        · exact hcross b hmb c hc
    · rintro ⟨hpb, ⟨hnext, hpa⟩, hcross⟩
      refine ⟨fun c hc => ?_, hpb, hpa, fun b hmb c hc => hcross b hmb c (by simp [hc])⟩
      rcases (hmem c).mp hc with hc | hc
      · exact (hb c hc).mpr (hcross c hc change (by simp))
      · exact (ha c hc).mpr (hnext c hc)

/-- Which changes can be applied, read off the list as it stands. -/
theorem applyChanges?_isSome_iff {text : String} {changes : List Change} :
    (applyChanges? text changes).isSome = true ↔
      (∀ change ∈ changes, change.stop ≤ maxOffset ∧ isBoundary change.start text.toList = true ∧
        isBoundary change.stop text.toList = true) ∧ changes.Pairwise Apart := by
  have hpass := applyFrom?_isSome_iff [] text.toList (sortChanges changes)
  rw [byteLen_nil, List.nil_append] at hpass
  rw [applyChanges?, Option.isSome_map, hpass, ← pairwise_apart_iff]
  simp only [mem_sortChanges, Nat.zero_le, true_and]

/-! ## What comes out -/

theorem splice?_append {change : Change} {before old : List Char}
    (hstart : byteLen before = change.start) (hstop : change.start + byteLen old = change.stop)
    (after : List Char) :
    change.splice? (before ++ old ++ after) = some (before ++ change.newText.toList ++ after) := by
  have hlength : change.span.length.toNat = byteLen old := by
    unfold Change.start Change.stop at hstop
    omega
  have hcut : cut? (byteLen before) (before ++ old ++ after) = some (before, old ++ after) := by
    rw [List.append_assoc]
    exact cut?_append before (old ++ after)
  unfold Change.splice?
  rw [← hstart, hcut, hlength]
  simp [cut?_append]

/-- Splicing in the changes from the last to the first gives what the pass gives. -/
theorem foldrM_splice?_of_applyFrom? (done : List Char) {text out : List Char}
    {changes : List Change}
    (h : applyFrom? (byteLen done) text changes = some out) :
    changes.foldrM (fun change text => change.splice? text) (done ++ text) =
      some (done ++ out) := by
  induction changes generalizing done text out with
  | nil =>
    rw [applyFrom?, Option.some.injEq] at h
    rw [h]
    rfl
  | cons change changes ih =>
    obtain ⟨kept, old, rest, tail, rfl, hkept, hold, -, htail, rfl⟩ :=
      applyFrom?_cons_eq_some_iff.mp h
    have hdone : byteLen (done ++ kept ++ old) = change.stop := by simp; omega
    rw [← hdone] at htail
    have hwhole : done ++ (kept ++ old ++ rest) = done ++ kept ++ old ++ rest := by simp
    rw [List.foldrM_cons, hwhole, ih _ htail]
    -- the later changes are made; what this one replaces still stands at its place
    have hfront : byteLen (done ++ kept) = change.start := by simp; omega
    have hsplice := splice?_append hfront hold tail
    simpa using hsplice

/-- **Applying changes is splicing.** The changes can be applied exactly if they are `Applicable`,
and then the result is the text with one change after the other made, from the last place to the
first. -/
theorem applyChanges?_eq_some_iff_spliceAll? (text : String) (changes : List Change) :
    ((applyChanges? text changes).isSome = true ↔ Applicable text.toList changes) ∧
      ∀ result : String, applyChanges? text changes = some result ↔
        Applicable text.toList changes ∧ spliceAll? text.toList changes = some result.toList := by
  have haccept : (applyChanges? text changes).isSome = true ↔
      Applicable text.toList changes := by
    have hpass := applyFrom?_isSome_iff [] text.toList (sortChanges changes)
    rw [byteLen_nil, List.nil_append] at hpass
    rw [applyChanges?, Option.isSome_map, hpass, ← pairwise_apart_iff]
    constructor
    · rintro ⟨hall, hpair⟩
      have hall' := fun c hc => hall c (mem_sortChanges.mpr hc)
      exact ⟨fun c hc => (hall' c hc).2.1, fun c hc => (hall' c hc).2.2.1,
        fun c hc => (hall' c hc).2.2.2, hpair⟩
    · intro h
      refine ⟨fun c hc => ?_, h.apart⟩
      have hc' := mem_sortChanges.mp hc
      exact ⟨Nat.zero_le _, h.fits c hc', h.starts c hc', h.stops c hc'⟩
  have hresult : ∀ result, applyChanges? text changes = some result →
      spliceAll? text.toList changes = some result.toList := by
    intro result h
    obtain ⟨out, hout, rfl⟩ := Option.map_eq_some_iff.mp h
    have hfold := foldrM_splice?_of_applyFrom? [] hout
    rw [spliceAll?, lastFirst_eq, List.foldlM_reverse]
    simpa using hfold
  refine ⟨haccept, fun result => ⟨fun h => ⟨haccept.mp (by rw [h]; rfl), hresult result h⟩, ?_⟩⟩
  rintro ⟨happ, hsplice⟩
  obtain ⟨result', h'⟩ := Option.isSome_iff_exists.mp (haccept.mpr happ)
  have heq : result'.toList = result.toList := by
    rw [hresult result' h', Option.some.injEq] at hsplice
    exact hsplice
  rw [h', String.toList_inj.mp heq]

end Assist.Extraction
