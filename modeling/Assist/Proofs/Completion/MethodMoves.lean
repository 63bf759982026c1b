import Assist.Proofs.Completion.Identity
import Assist.Proofs.Completion.PropertyOrder

/-!
# Methods only move

With values off, completing a list takes out the method of each function that has one and puts it
back next to the plain entry of the name, or in its place. Taking out and putting back act on
entries of one name, so all methods can be taken out first (`run_eq_withMethods`). What is left is
the host's list without these methods (`withoutMethods`); putting them back (`withMethods`) leaves
its order alone and does not separate what was put together before.

So the completed list has the entries of the host, but for the sort keys of the moved methods and,
where plain entries are replaced, these (`extend_moves_methods`).
-/

namespace Assist.Completion

open Assist.Syntax Assist.Types

/-! ## Moves -/

/-- A method that moves, and the plain entry that it moves to. -/
@[ext]
structure Move where
  plain : Entry
  method : Entry
  deriving DecidableEq

namespace Move

/-- The name of the two entries. -/
def name (move : Move) : String := move.plain.name

/-- The entry of the method under the sort key of the plain entry. -/
def moved (move : Move) : Entry := { move.method with sortText := move.plain.sortText }

/-- The list without the method. -/
def takeOut (move : Move) (entries : List Entry) : List Entry :=
  entries.eraseP (Entry.isMethodOf move.name)

/-- The list with the method at the plain entry. -/
def putBack (placement : Placement) (move : Move) (entries : List Entry) : List Entry :=
  expandFirst (Entry.isPlainOf move.name)
    (fun entry => entry.beside placement { move.method with sortText := entry.sortText }) entries

end Move

/-- The move that a property makes in a list: it is a function where it is completed, and the list
has a plain entry and a method of its name. Of several such entries the first counts. -/
def Request.moveFor? (r : Request) (node : NodeId) (entries : List Entry) (property : Property) :
    Option Move :=
  if (r.oracle.propertyTypeAt property node).any r.oracle.isFunction then
    match entries.find? (Entry.isPlainOf property.name),
      entries.find? (Entry.isMethodOf property.name) with
    | some plain, some method => some ⟨plain, method⟩
    | _, _ => none
  else none

/-- The moves that properties make in a list. -/
def Request.moves (r : Request) (node : NodeId) (properties : List Property)
    (entries : List Entry) : List Move :=
  properties.filterMap (r.moveFor? node entries)

/-- A list without the methods that move. -/
def withoutMethods (moves : List Move) (entries : List Entry) : List Entry :=
  moves.foldl (fun entries move => move.takeOut entries) entries

/-- A list with the methods at their plain entries. -/
def withMethods (placement : Placement) (moves : List Move) (entries : List Entry) : List Entry :=
  moves.foldl (fun entries move => move.putBack placement entries) entries

/-- Somewhere in a list stands `block`, and no plain entry of the name before it. -/
def StandsFirst (name : String) (block entries : List Entry) : Prop :=
  ∃ front back, entries = front ++ (block ++ back) ∧
    ∀ entry ∈ front, ¬entry.isPlainOf name = true

/-- The methods moved next to their plain entries. -/
structure MovedBeside (placement : Placement) (moves : List Move) (before after : List Entry) :
    Prop where
  /-- Nothing but the methods moved, and they kept all but their sort keys. -/
  before_perm : before.Perm (moves.map Move.method ++ withoutMethods moves before)
  after_perm : after.Perm (moves.map Move.moved ++ withoutMethods moves before)
  before_order : (withoutMethods moves before).Sublist before
  after_order : (withoutMethods moves before).Sublist after
  beside : ∀ move ∈ moves,
    StandsFirst move.name (move.plain.beside placement move.moved) after

/-- The methods moved into the places of their plain entries. -/
structure MovedInto (moves : List Move) (before after : List Entry) : Prop where
  before_perm : before.Perm (moves.map Move.method ++ withoutMethods moves before)
  before_order : (withoutMethods moves before).Sublist before
  /-- Every move takes one entry off the list. -/
  length_add : after.length + moves.length = before.length
  length_eq : after.length = (withoutMethods moves before).length
  inPlace : ∀ move ∈ moves, ∃ index,
    plainIndex? (withoutMethods moves before) move.name = some index ∧
      after[index]? = some move.moved
  others : ∀ index,
    (∀ move ∈ moves, plainIndex? (withoutMethods moves before) move.name ≠ some index) →
      after[index]? = (withoutMethods moves before)[index]?

/-! ## Blocks at the first entry -/

section Blocks

variable {p q : Entry → Bool} {block block' : Entry → List Entry} {entries : List Entry}
  {entry : Entry} {name name' : String}

theorem eraseP_eq_expandFirst (p : Entry → Bool) (entries : List Entry) :
    entries.eraseP p = expandFirst p (fun _ => []) entries := by
  induction entries with
  | nil => rfl
  | cons e entries ih =>
    by_cases he : p e = true
    · rw [List.eraseP_cons_of_pos he, expandFirst_cons_of_pos he, List.nil_append]
    · rw [List.eraseP_cons_of_neg he, expandFirst_cons_of_neg he, ih]

/-- The list around the first entry that satisfies `p`, before and after it is expanded. -/
theorem exists_split_of_find? (h : entries.find? p = some entry) (block : Entry → List Entry) :
    ∃ front back, entries = front ++ entry :: back ∧
      expandFirst p block entries = front ++ (block entry ++ back) ∧
      ∀ e ∈ front, ¬p e = true := by
  obtain ⟨hentry, front, back, rfl, hfront⟩ := List.find?_eq_some_iff_append.mp h
  have hnone : ∀ e ∈ front, ¬p e = true := by
    intro e he
    rw [Bool.not_eq_true, ← Bool.not_eq_true']
    exact hfront e he
  refine ⟨front, back, rfl, ?_, hnone⟩
  rw [expandFirst_append_of_none hnone, expandFirst_cons_of_pos hentry]

theorem expandFirst_append (p : Entry → Bool) (block : Entry → List Entry) (xs ys : List Entry) :
    expandFirst p block (xs ++ ys) = expandFirst p block xs ++ ys ∨
      expandFirst p block (xs ++ ys) = xs ++ expandFirst p block ys := by
  induction xs with
  | nil => exact Or.inr rfl
  | cons e xs ih =>
    by_cases he : p e = true
    · left
      rw [List.cons_append, expandFirst_cons_of_pos he, expandFirst_cons_of_pos he,
        List.append_assoc]
    · rw [List.cons_append, expandFirst_cons_of_neg he, expandFirst_cons_of_neg he]
      rcases ih with ih | ih
      · left
        rw [ih, List.cons_append]
      · right
        rw [ih, List.cons_append]

/-- A block for entries of another name leaves together what stands together. -/
theorem StandsFirst.expandFirst {stands : List Entry} (h : StandsFirst name stands entries)
    (hacts : ActsOn name' p block) (hne : name ≠ name') (hstands : ∀ e ∈ stands, e.name = name) :
    StandsFirst name stands (expandFirst p block entries) := by
  obtain ⟨front, back, rfl, hfront⟩ := h
  have hpast : ∀ e ∈ stands, ¬p e = true := by
    intro e he
    exact hacts.not_of_name_ne (hstands e he ▸ hne)
  rcases expandFirst_append p block front (stands ++ back) with heq | heq
  · refine ⟨_, back, heq, ?_⟩
    intro e he hplain
    rcases mem_of_mem_expandFirst he with hold | ⟨old, -, hp, hblock⟩
    · exact hfront e hold hplain
    · rw [← (Entry.isPlainOf_iff.mp hplain).1] at hne
      exact hne (hacts.blockNamed old hp e hblock)
  · rw [expandFirst_append_of_none hpast] at heq
    exact ⟨front, _, heq, hfront⟩

end Blocks

/-! ## Putting methods back -/

section Moves

variable {placement : Placement} {move : Move} {moves : List Move} {entries : List Entry}
  {p : Entry → Bool} {block : Entry → List Entry}

theorem takeOut_eq (move : Move) (entries : List Entry) :
    move.takeOut entries = expandFirst (Entry.isMethodOf move.name) (fun _ => []) entries :=
  eraseP_eq_expandFirst _ entries

theorem actsOn_putBack (placement : Placement) (h : move.method.name = move.name) :
    ActsOn move.name (Entry.isPlainOf move.name) fun entry =>
      entry.beside placement { move.method with sortText := entry.sortText } :=
  actsOn_beside placement fun _ _ => h

/-- The plain entries of moves are the first of their names, which are different. -/
structure Awaits (moves : List Move) (entries : List Entry) : Prop where
  distinct : (moves.map Move.name).Nodup
  plain : ∀ move ∈ moves, entries.find? (Entry.isPlainOf move.name) = some move.plain
  named : ∀ move ∈ moves, move.method.name = move.name

/-- The methods of moves are the first of their names. -/
def HasMethods (moves : List Move) (entries : List Entry) : Prop :=
  ∀ move ∈ moves, entries.find? (Entry.isMethodOf move.name) = some move.method

theorem Awaits.name_ne (h : Awaits (move :: moves) entries) {other : Move}
    (hother : other ∈ moves) : other.name ≠ move.name := by
  have hfresh := (List.nodup_cons.mp h.distinct).1
  rintro heq
  exact hfresh (heq ▸ List.mem_map_of_mem hother)

/-- What is done for one name does not matter to the other moves. -/
theorem Awaits.tail (h : Awaits (move :: moves) entries) (hacts : ActsOn move.name p block) :
    Awaits moves (expandFirst p block entries) where
  distinct := (List.nodup_cons.mp h.distinct).2
  plain other hother := by
    rw [hacts.find?_eq, h.plain other (List.mem_cons_of_mem _ hother)]
    intro e he
    rw [(Entry.isPlainOf_iff.mp he).1]
    exact h.name_ne hother
  named other hother := h.named other (List.mem_cons_of_mem _ hother)

theorem HasMethods.tail (h : HasMethods (move :: moves) entries)
    (hawaits : Awaits (move :: moves) entries) (hacts : ActsOn move.name p block) :
    HasMethods moves (expandFirst p block entries) := by
  intro other hother
  rw [hacts.find?_eq, h other (List.mem_cons_of_mem _ hother)]
  intro e he
  rw [(Entry.isMethodOf_iff.mp he).1]
  exact hawaits.name_ne hother

theorem Awaits.putBack (h : Awaits (move :: moves) entries) (placement : Placement) :
    Awaits moves (move.putBack placement entries) :=
  h.tail (actsOn_putBack placement (h.named move List.mem_cons_self))

/-- Plain entries stay when methods are taken out. -/
theorem find?_isPlainOf_takeOut (move : Move) (name : String) (entries : List Entry) :
    (move.takeOut entries).find? (Entry.isPlainOf name) = entries.find? (Entry.isPlainOf name) := by
  rw [takeOut_eq]
  refine find?_expandFirst ?_ (fun _ _ _ hnew => absurd hnew List.not_mem_nil) entries
  intro e hmethod hplain
  have hnot := (Entry.isPlainOf_iff.mp hplain).2
  rw [(Entry.isMethodOf_iff.mp hmethod).2] at hnot
  cases hnot

theorem Awaits.withoutMethods (h : Awaits moves entries) (others : List Move) :
    Awaits moves (withoutMethods others entries) := by
  refine ⟨h.distinct, ?_, h.named⟩
  intro move hmove
  rw [← h.plain move hmove]
  induction others generalizing entries with
  | nil => rfl
  | cons other others ih =>
    have hstep : Awaits moves (other.takeOut entries) := by
      refine ⟨h.distinct, ?_, h.named⟩
      intro move hmove
      rw [find?_isPlainOf_takeOut, h.plain move hmove]
    exact (ih hstep).trans (find?_isPlainOf_takeOut other move.name entries)

/-- **All methods are taken out first.** -/
theorem run_eq_withMethods (placement : Placement) (h : Awaits moves entries) :
    moves.foldl (fun entries move => move.putBack placement (move.takeOut entries)) entries =
      withMethods placement moves (withoutMethods moves entries) := by
  induction moves generalizing entries with
  | nil => rfl
  | cons move moves ih =>
    have hacts := actsOn_putBack placement (h.named move List.mem_cons_self)
    -- the methods of other names are taken out of a list before or after one is put back
    have hcomm : ∀ (others : List Move) (entries : List Entry),
        (∀ other ∈ others, other.name ≠ move.name) →
        withoutMethods others (move.putBack placement entries) =
          move.putBack placement (withoutMethods others entries) := by
      intro others
      induction others with
      | nil => exact fun _ _ => rfl
      | cons other others ihOthers =>
        intro entries hnames
        show withoutMethods others (other.takeOut (move.putBack placement entries)) =
          move.putBack placement (withoutMethods others (other.takeOut entries))
        have hother : other.takeOut (move.putBack placement entries) =
            move.putBack placement (other.takeOut entries) := by
          rw [takeOut_eq, takeOut_eq]
          exact expandFirst_comm hacts (actsOn_without_method other.name)
            (hnames other List.mem_cons_self).symm entries
        rw [hother, ihOthers _ fun later hlater => hnames later (List.mem_cons_of_mem _ hlater)]
    have htail : Awaits moves (move.putBack placement (move.takeOut entries)) := by
      have hhead := h.withoutMethods [move]
      exact hhead.putBack placement
    show moves.foldl _ (move.putBack placement (move.takeOut entries)) =
      withMethods placement moves (move.putBack placement (withoutMethods moves
        (move.takeOut entries)))
    rw [ih htail, hcomm moves _ fun other hother => h.name_ne hother]

/-! ### What is taken out -/

theorem before_perm_withoutMethods (h : Awaits moves entries)
    (hmethods : HasMethods moves entries) :
    entries.Perm (moves.map Move.method ++ withoutMethods moves entries) := by
  induction moves generalizing entries with
  | nil => exact List.Perm.refl _
  | cons move moves ih =>
    have hacts := actsOn_without_method move.name
    obtain ⟨front, back, hsplit, hexpand, -⟩ :=
      exists_split_of_find? (hmethods move List.mem_cons_self) fun _ => []
    have hout : entries.Perm (move.method :: move.takeOut entries) := by
      rw [takeOut_eq, hexpand, hsplit]
      exact List.perm_middle
    have hrest := ih (h.tail hacts) (hmethods.tail h hacts)
    rw [← takeOut_eq] at hrest
    exact hout.trans (hrest.cons move.method)

theorem withoutMethods_sublist (moves : List Move) (entries : List Entry) :
    (withoutMethods moves entries).Sublist entries := by
  induction moves generalizing entries with
  | nil => exact List.Sublist.refl _
  | cons move moves ih => exact (ih _).trans List.eraseP_sublist

/-! ### Beside the plain entries -/

/-- Putting one method back, seen at the first plain entry. -/
theorem exists_split_putBack (h : Awaits (move :: moves) entries) (placement : Placement) :
    ∃ front back, entries = front ++ move.plain :: back ∧
      move.putBack placement entries =
        front ++ (move.plain.beside placement move.moved ++ back) ∧
      ∀ e ∈ front, ¬e.isPlainOf move.name = true :=
  exists_split_of_find? (h.plain move List.mem_cons_self) _

theorem withMethods_perm (hplacement : placement ≠ .remove) (h : Awaits moves entries) :
    (withMethods placement moves entries).Perm (moves.map Move.moved ++ entries) := by
  induction moves generalizing entries with
  | nil => exact List.Perm.refl _
  | cons move moves ih =>
    obtain ⟨front, back, hsplit, hput, -⟩ := exists_split_putBack h placement
    have hone : (move.putBack placement entries).Perm (move.moved :: entries) := by
      rw [hput, hsplit]
      cases placement with
      | above => exact List.perm_middle
      | below =>
        show (front ++ ([move.plain] ++ move.moved :: back)).Perm
          (move.moved :: (front ++ ([move.plain] ++ back)))
        rw [← List.append_assoc, ← List.append_assoc]
        exact List.perm_middle
      | remove => exact absurd rfl hplacement
    have hrest := ih (h.putBack placement)
    exact hrest.trans ((hone.append_left _).trans List.perm_middle)

theorem sublist_withMethods (hplacement : placement ≠ .remove) (h : Awaits moves entries) :
    entries.Sublist (withMethods placement moves entries) := by
  induction moves generalizing entries with
  | nil => exact List.Sublist.refl _
  | cons move moves ih =>
    obtain ⟨front, back, hsplit, hput, -⟩ := exists_split_putBack h placement
    have hone : entries.Sublist (move.putBack placement entries) := by
      rw [hput, hsplit, ← List.singleton_append]
      refine List.Sublist.append_left (List.Sublist.append_right ?_ back) front
      cases placement with
      | above => exact List.sublist_cons_self _ _
      | below => exact List.sublist_append_left _ _
      | remove => exact absurd rfl hplacement
    exact hone.trans (ih (h.putBack placement))

theorem StandsFirst.withMethods {name : String} {stands : List Entry}
    (h : StandsFirst name stands entries) (hstands : ∀ e ∈ stands, e.name = name)
    (hnamed : ∀ move ∈ moves, move.method.name = move.name)
    (hne : ∀ move ∈ moves, move.name ≠ name) :
    StandsFirst name stands (withMethods placement moves entries) := by
  induction moves generalizing entries with
  | nil => exact h
  | cons move moves ih =>
    have hacts := actsOn_putBack placement (hnamed move List.mem_cons_self)
    have hone : StandsFirst name stands (move.putBack placement entries) :=
      h.expandFirst hacts (hne move List.mem_cons_self).symm hstands
    exact ih hone (fun other hother => hnamed other (List.mem_cons_of_mem _ hother))
      fun other hother => hne other (List.mem_cons_of_mem _ hother)

theorem standsFirst_withMethods (placement : Placement) (h : Awaits moves entries) :
    ∀ move ∈ moves, StandsFirst move.name (move.plain.beside placement move.moved)
      (withMethods placement moves entries) := by
  induction moves generalizing entries with
  | nil => exact fun move hmove => absurd hmove List.not_mem_nil
  | cons move moves ih =>
    intro other hother
    rcases List.mem_cons.mp hother with rfl | hlater
    · obtain ⟨front, back, -, hput, hfront⟩ := exists_split_putBack h placement
      have hone : StandsFirst other.name (other.plain.beside placement other.moved)
          (other.putBack placement entries) := ⟨front, back, hput, hfront⟩
      refine hone.withMethods ?_ (h.putBack placement).named fun later hmem => h.name_ne hmem
      intro e he
      rcases eq_or_eq_of_mem_beside he with rfl | rfl
      · rfl
      · exact h.named other List.mem_cons_self
    · exact ih (h.putBack placement) other hlater

/-! ### In the places of the plain entries -/

/-- Where plain entries are replaced, a move changes one entry of the list. -/
theorem exists_putBack_eq_set (h : Awaits (move :: moves) entries) :
    ∃ index, plainIndex? entries move.name = some index ∧ entries[index]? = some move.plain ∧
      move.putBack .remove entries = entries.set index move.moved := by
  have hfind := h.plain move List.mem_cons_self
  cases hindex : plainIndex? entries move.name with
  | none => exact absurd ((find?_eq_none_of_findIdx? hindex).symm.trans hfind) (by simp)
  | some index =>
    obtain ⟨found, hfound, hfirst⟩ := exists_of_findIdx? hindex
    have hplain : found = move.plain := Option.some.inj (hfirst.symm.trans hfind)
    refine ⟨index, rfl, hplain ▸ hfound, ?_⟩
    exact (place_eq_expandFirst .remove (fun e => { move.method with sortText := e.sortText })
      hindex hfind).symm

/-- What is found first stays where it is if another entry is changed. -/
theorem findIdx?_set_of_eq {index : Nat} {old new : Entry} (hold : entries[index]? = some old)
    (heq : p new = p old) : (entries.set index new).findIdx? p = entries.findIdx? p := by
  induction entries generalizing index with
  | nil => rfl
  | cons e entries ih =>
    cases index with
    | zero =>
      obtain rfl : e = old := Option.some.inj hold
      rw [List.set_cons_zero, List.findIdx?_cons, List.findIdx?_cons, heq]
    | succ index => rw [List.set_cons_succ, List.findIdx?_cons, List.findIdx?_cons, ih hold]

theorem plainIndex?_set {index : Nat} {old new : Entry} (hold : entries[index]? = some old)
    {name : String} (hne : old.name ≠ name) (hnew : new.name = old.name) :
    plainIndex? (entries.set index new) name = plainIndex? entries name := by
  refine findIdx?_set_of_eq hold ?_
  rw [hnew, beq_false_of_ne hne, Bool.false_and, Bool.false_and]

theorem withMethods_remove (h : Awaits moves entries) :
    (withMethods .remove moves entries).length = entries.length ∧
    (∀ move ∈ moves, ∃ index, plainIndex? entries move.name = some index ∧
      (withMethods .remove moves entries)[index]? = some move.moved) ∧
    ∀ index, (∀ move ∈ moves, plainIndex? entries move.name ≠ some index) →
      (withMethods .remove moves entries)[index]? = entries[index]? := by
  induction moves generalizing entries with
  | nil => exact ⟨rfl, fun move hmove => absurd hmove List.not_mem_nil, fun _ _ => rfl⟩
  | cons move moves ih =>
    obtain ⟨place, hplace, hplain, hput⟩ := exists_putBack_eq_set h
    obtain ⟨hlength, hmoved, hothers⟩ := ih (h.putBack .remove)
    rw [hput] at hlength hmoved hothers
    have hindex : ∀ other ∈ moves, plainIndex? (entries.set place move.moved) other.name =
        plainIndex? entries other.name := by
      intro other hother
      exact plainIndex?_set hplain (h.name_ne hother).symm (h.named move List.mem_cons_self)
    -- no other plain entry is in the place of this one
    have hfree : ∀ other ∈ moves, plainIndex? entries other.name ≠ some place := by
      intro other hother hsame
      obtain ⟨found, hfound, hfirst⟩ := exists_of_findIdx? hsame
      have hname : found.name = other.name := (Entry.isPlainOf_iff.mp (List.find?_some hfirst)).1
      rw [hplain, Option.some.injEq] at hfound
      exact h.name_ne hother (hname.symm.trans (congrArg Entry.name hfound.symm))
    have hlt : place < entries.length := (List.getElem?_eq_some_iff.mp hplain).1
    have hwhole : withMethods .remove (move :: moves) entries =
        withMethods .remove moves (entries.set place move.moved) := by
      rw [← hput]
      rfl
    rw [hwhole]
    refine ⟨hlength.trans List.length_set, ?_, ?_⟩
    · intro other hother
      rcases List.mem_cons.mp hother with rfl | hlater
      · refine ⟨place, hplace, ?_⟩
        rw [hothers place fun later hmem => hindex later hmem ▸ hfree later hmem]
        exact List.getElem?_set_self hlt
      · obtain ⟨index, hat, hget⟩ := hmoved other hlater
        exact ⟨index, (hindex other hlater).symm.trans hat, hget⟩
    · intro index hnone
      have hne : place ≠ index := by
        rintro rfl
        exact hnone move List.mem_cons_self hplace
      rw [hothers index fun later hmem => hindex later hmem ▸
        hnone later (List.mem_cons_of_mem _ hmem)]
      exact List.getElem?_set_ne hne

theorem length_withoutMethods (h : Awaits moves entries) (hmethods : HasMethods moves entries) :
    (withoutMethods moves entries).length + moves.length = entries.length := by
  have hlength := (before_perm_withoutMethods h hmethods).length_eq
  rw [List.length_append, List.length_map] at hlength
  omega

end Moves

/-! ## The properties one after the other -/

section Properties

variable {r : Request} {node : NodeId} {entries out : List Entry} {property : Property}
  {properties : List Property} {move : Move} {p : Entry → Bool} {block : Entry → List Entry}

theorem moveFor?_eq_some_iff : r.moveFor? node entries property = some move ↔
    (r.oracle.propertyTypeAt property node).any r.oracle.isFunction = true ∧
      entries.find? (Entry.isPlainOf property.name) = some move.plain ∧
      entries.find? (Entry.isMethodOf property.name) = some move.method := by
  unfold Request.moveFor?
  split
  · rename_i hfunction
    rcases entries.find? (Entry.isPlainOf property.name) with _ | plain <;>
      rcases entries.find? (Entry.isMethodOf property.name) with _ | method <;>
      simp [hfunction, Move.ext_iff]
  · simp_all

theorem name_of_moveFor? (h : r.moveFor? node entries property = some move) :
    move.name = property.name ∧ move.method.name = property.name := by
  obtain ⟨-, hplain, hmethod⟩ := moveFor?_eq_some_iff.mp h
  exact ⟨(Entry.isPlainOf_iff.mp (List.find?_some hplain)).1,
    (Entry.isMethodOf_iff.mp (List.find?_some hmethod)).1⟩

/-- What a method adds to a list with a plain entry of its name is its move. -/
theorem addTo_method_eq_move (placement : Placement) {name : String} {plain method : Entry}
    (hplain : entries.find? (Entry.isPlainOf name) = some plain)
    (hmethod : entries.find? (Entry.isMethodOf name) = some method) :
    Addition.method.addTo placement name entries =
      Move.putBack placement ⟨plain, method⟩ (Move.takeOut ⟨plain, method⟩ entries) := by
  have hname : Move.name ⟨plain, method⟩ = name :=
    (Entry.isPlainOf_iff.mp (List.find?_some hplain)).1
  rw [addTo_method_of_some placement hmethod, Move.putBack, takeOut_eq, hname]

/-- **One step.** With values off, completing a property is its move. -/
theorem complete_eq_move (hmethods : r.preferences.methodSnippets = true)
    (hvalues : r.settings.offerValues = false) :
    r.complete node entries property = .ok (match r.moveFor? node entries property with
      | none => entries
      | some move => move.putBack r.settings.placement (move.takeOut entries)) := by
  rw [complete_eq]
  unfold Request.addition Request.moveFor?
  cases hplain : entries.find? (Entry.isPlainOf property.name) with
  | none => simp [Except.map, Addition.addTo]
  | some plain =>
    cases htype : r.oracle.propertyTypeAt property node with
    | none => rfl
    | some type =>
      by_cases hfunction : r.oracle.isFunction type = true
      · simp only [hfunction, hmethods, if_true, Option.any_some, Except.map]
        cases hmethod : entries.find? (Entry.isMethodOf property.name) with
        | none => rw [addTo_method_of_none _ hmethod]
        | some method => rw [addTo_method_eq_move _ hplain hmethod]
      · simp [hfunction, hvalues, Except.map, Addition.addTo]

/-- A move of one name does not matter to the properties of other names. -/
theorem moveFor?_move (hmove : move.method.name = move.name) (hne : move.name ≠ property.name)
    (placement : Placement) :
    r.moveFor? node (move.putBack placement (move.takeOut entries)) property =
      r.moveFor? node entries property := by
  have hput := actsOn_putBack placement hmove
  have hout := actsOn_without_method move.name
  have hplain : (move.putBack placement (move.takeOut entries)).find?
      (Entry.isPlainOf property.name) = entries.find? (Entry.isPlainOf property.name) := by
    have hother : ∀ e : Entry, e.isPlainOf property.name = true → e.name ≠ move.name := by
      intro e he
      rw [(Entry.isPlainOf_iff.mp he).1]
      exact hne.symm
    rw [takeOut_eq]
    exact (hput.find?_eq hother _).trans (hout.find?_eq hother entries)
  have hmethod : (move.putBack placement (move.takeOut entries)).find?
      (Entry.isMethodOf property.name) = entries.find? (Entry.isMethodOf property.name) := by
    have hother : ∀ e : Entry, e.isMethodOf property.name = true → e.name ≠ move.name := by
      intro e he
      rw [(Entry.isMethodOf_iff.mp he).1]
      exact hne.symm
    rw [takeOut_eq]
    exact (hput.find?_eq hother _).trans (hout.find?_eq hother entries)
  unfold Request.moveFor?
  rw [hplain, hmethod]

/-- All properties, one after the other. -/
theorem foldlM_complete_eq_moves (hmethods : r.preferences.methodSnippets = true)
    (hvalues : r.settings.offerValues = false)
    (hdistinct : (properties.map Property.name).Nodup) :
    properties.foldlM (r.complete node) entries =
      .ok ((r.moves node properties entries).foldl
        (fun entries move => move.putBack r.settings.placement (move.takeOut entries))
        entries) := by
  induction properties generalizing entries with
  | nil => rfl
  | cons property properties ih =>
    obtain ⟨hfresh, hdistinct⟩ := List.nodup_cons.mp hdistinct
    rw [List.foldlM_cons, complete_eq_move hmethods hvalues]
    unfold Request.moves
    rw [List.filterMap_cons]
    cases hmove : r.moveFor? node entries property with
    | none => exact ih hdistinct
    | some move =>
      obtain ⟨hname, hnamed⟩ := name_of_moveFor? hmove
      have hrest : r.moves node properties (move.putBack r.settings.placement
          (move.takeOut entries)) = r.moves node properties entries := by
        refine List.filterMap_congr fun other hother => ?_
        refine moveFor?_move (hnamed.trans hname.symm) ?_ _
        rw [hname]
        intro hsame
        exact hfresh (List.mem_map.mpr ⟨other, hother, hsame.symm⟩)
      rw [List.foldl_cons]
      refine (ih hdistinct).trans ?_
      rw [hrest]
      rfl

/-- The moves of properties with different names can be made. -/
theorem awaits_moves (hdistinct : (properties.map Property.name).Nodup) :
    Awaits (r.moves node properties entries) entries ∧
      HasMethods (r.moves node properties entries) entries := by
  have hmem : ∀ move ∈ r.moves node properties entries, ∃ property ∈ properties,
      r.moveFor? node entries property = some move := fun move hmove =>
    List.mem_filterMap.mp hmove
  refine ⟨⟨?_, ?_, ?_⟩, ?_⟩
  · have hsub : ((r.moves node properties entries).map Move.name).Sublist
        (properties.map Property.name) := by
      unfold Request.moves
      clear hmem hdistinct
      induction properties with
      | nil => exact List.Sublist.refl _
      | cons property properties ih =>
        rw [List.filterMap_cons]
        cases hmove : r.moveFor? node entries property with
        | none => exact ih.cons _
        | some move =>
          rw [List.map_cons, List.map_cons, (name_of_moveFor? hmove).1]
          exact ih.cons_cons _
    exact hsub.nodup hdistinct
  · intro move hmove
    obtain ⟨property, -, hmove⟩ := hmem move hmove
    rw [(name_of_moveFor? hmove).1]
    exact (moveFor?_eq_some_iff.mp hmove).2.1
  · intro move hmove
    obtain ⟨property, -, hmove⟩ := hmem move hmove
    obtain ⟨hname, hmethod⟩ := name_of_moveFor? hmove
    exact hmethod.trans hname.symm
  · intro move hmove
    obtain ⟨property, -, hmove⟩ := hmem move hmove
    rw [(name_of_moveFor? hmove).1]
    exact (moveFor?_eq_some_iff.mp hmove).2.2

end Properties

/-- **Methods only move.** With methods on and values off, the completed list is the host's list
with each method moved next to the first plain entry of its name, or into its place, if the
properties of the expected type have different names. -/
theorem extend_moves_methods {r : Request} {entries out : List Entry}
    (hmethods : r.preferences.methodSnippets = true) (hvalues : r.settings.offerValues = false)
    (h : r.extend entries = .ok (some out)) :
    ∃ node expected, r.literal? = some node ∧ r.oracle.expectedType node = some expected ∧
      (((r.oracle.completableProperties expected).map Property.name).Nodup →
        (r.settings.placement ≠ .remove → MovedBeside r.settings.placement
          (r.moves node (r.oracle.completableProperties expected) entries) entries out) ∧
        (r.settings.placement = .remove →
          MovedInto (r.moves node (r.oracle.completableProperties expected) entries)
            entries out)) := by
  obtain ⟨node, expected, hnode, hexpected, hrun⟩ := exists_foldlM_of_extend h
  refine ⟨node, expected, hnode, hexpected, fun hdistinct => ?_⟩
  obtain ⟨hawaits, hhas⟩ := @awaits_moves r node entries _ hdistinct
  rw [foldlM_complete_eq_moves hmethods hvalues hdistinct, run_eq_withMethods _ hawaits,
    Except.ok.injEq] at hrun
  set moves := r.moves node (r.oracle.completableProperties expected) entries
  have hkept : Awaits moves (withoutMethods moves entries) := hawaits.withoutMethods moves
  have hperm := before_perm_withoutMethods hawaits hhas
  have hsublist := withoutMethods_sublist moves entries
  rw [← hrun]
  constructor
  · intro hplacement
    exact ⟨hperm, withMethods_perm hplacement hkept, hsublist, sublist_withMethods hplacement hkept,
      standsFirst_withMethods _ hkept⟩
  · intro hplacement
    rw [hplacement]
    obtain ⟨hlength, hmoved, hothers⟩ := withMethods_remove hkept
    have hadd := length_withoutMethods hawaits hhas
    exact ⟨hperm, hsublist, by rw [hlength]; exact hadd, hlength, hmoved, hothers⟩

/-- The request of the options with methods and without values. -/
def movesRequest (placement : Placement) : Request :=
  { methodRequest with
    settings := { methodRequest.settings with offerValues := false, placement } }

theorem extend_moves_methods_options :
    ((movesRequest .above).extend [runMethod, tagsEntry, runEntry, moodEntry] =
        .ok (some [tagsEntry, { runMethod with sortText := "11" }, runEntry, moodEntry]) ∧
      MovedBeside .above [⟨runEntry, runMethod⟩] [runMethod, tagsEntry, runEntry, moodEntry]
        [tagsEntry, { runMethod with sortText := "11" }, runEntry, moodEntry]) ∧
    (movesRequest .remove).extend [runMethod, tagsEntry, runEntry, moodEntry] =
        .ok (some [tagsEntry, { runMethod with sortText := "11" }, moodEntry]) ∧
      MovedInto [⟨runEntry, runMethod⟩] [runMethod, tagsEntry, runEntry, moodEntry]
        [tagsEntry, { runMethod with sortText := "11" }, moodEntry] := by
  have hliteral : ∀ placement, (movesRequest placement).literal? = some ⟨0⟩ := by
    intro placement
    cases placement <;> decide +kernel
  have htype : ∀ placement, (movesRequest placement).oracle.expectedType ⟨0⟩ = some ⟨15⟩ := by
    intro placement
    cases placement <;> decide +kernel
  have hmoves : ∀ placement, (movesRequest placement).moves ⟨0⟩
      ((movesRequest placement).oracle.completableProperties ⟨15⟩)
      [runMethod, tagsEntry, runEntry, moodEntry] = [⟨runEntry, runMethod⟩] := by
    intro placement
    cases placement <;> decide +kernel
  have hnames : ∀ placement, (((movesRequest placement).oracle.completableProperties ⟨15⟩).map
      Property.name).Nodup := by
    intro placement
    cases placement <;> decide +kernel
  have habove : (movesRequest .above).extend [runMethod, tagsEntry, runEntry, moodEntry] =
      .ok (some [tagsEntry, { runMethod with sortText := "11" }, runEntry, moodEntry]) := by
    decide +kernel
  have hremove : (movesRequest .remove).extend [runMethod, tagsEntry, runEntry, moodEntry] =
      .ok (some [tagsEntry, { runMethod with sortText := "11" }, moodEntry]) := by
    decide +kernel
  refine ⟨⟨habove, ?_⟩, hremove, ?_⟩
  · obtain ⟨node, expected, hnode, hexpected, hout⟩ := extend_moves_methods rfl rfl habove
    obtain rfl : ⟨0⟩ = node := Option.some.inj ((hliteral .above).symm.trans hnode)
    obtain rfl : ⟨15⟩ = expected := Option.some.inj ((htype .above).symm.trans hexpected)
    have hbeside := (hout (hnames .above)).1 (by decide)
    rw [hmoves] at hbeside
    exact hbeside
  · obtain ⟨node, expected, hnode, hexpected, hout⟩ := extend_moves_methods rfl rfl hremove
    obtain rfl : ⟨0⟩ = node := Option.some.inj ((hliteral .remove).symm.trans hnode)
    obtain rfl : ⟨15⟩ = expected := Option.some.inj ((htype .remove).symm.trans hexpected)
    have hinto := (hout (hnames .remove)).2 rfl
    rw [hmoves] at hinto
    exact hinto

end Assist.Completion
