import Mathlib.Data.List.Pairwise
import Mathlib.Data.List.Perm.Subperm
import Mathlib.Data.List.Range
import Mathlib.Logic.Relation
import QueensPuzzle.Placement

/-! # Placements that arise on a board

A placement is legal when its queens were put on open squares one after the other, in
whatever rows. The open squares of a legal placement are those on which a further queen
leaves the queens in peace. A search puts queens on the next row only, so the placements
below a root add queens on consecutive rows.
-/

namespace QueensPuzzle

/-- Queens on a board none of which attacks another. -/
structure Peaceful (size : Nat) (queens : List Square) : Prop where
  on_board : ∀ queen ∈ queens, queen.row < size ∧ queen.column < size
  pairwise : queens.Pairwise fun a b => a.attacks b = false

namespace Peaceful

variable {size : Nat} {queens more : List Square}

theorem nil (size : Nat) : Peaceful size [] := ⟨by simp, .nil⟩

theorem concat_iff {queen : Square} :
    Peaceful size (queens ++ [queen]) ↔ Peaceful size queens ∧
      (queen.row < size ∧ queen.column < size) ∧ ∀ other ∈ queens, other.attacks queen = false := by
  constructor
  · rintro ⟨hboard, hpairs⟩
    rw [List.pairwise_append] at hpairs
    refine ⟨⟨fun other hother => hboard other (List.mem_append_left _ hother), hpairs.1⟩,
      hboard queen (by simp), ?_⟩
    intro other hother
    exact hpairs.2.2 other hother queen (List.mem_singleton_self queen)
  · rintro ⟨⟨hboard, hpairs⟩, hqueen, hnone⟩
    refine ⟨?_, ?_⟩
    · intro other hother
      rcases List.mem_append.mp hother with hold | hnew
      · exact hboard other hold
      · rw [List.mem_singleton.mp hnew]
        exact hqueen
    · rw [List.pairwise_append]
      refine ⟨hpairs, List.pairwise_singleton _ _, ?_⟩
      intro other hother last hlast
      rw [List.mem_singleton.mp hlast]
      exact hnone other hother

theorem sublist (h : Peaceful size queens) (hmore : more.Sublist queens) : Peaceful size more :=
  ⟨fun queen hqueen => h.on_board queen (hmore.subset hqueen), h.pairwise.sublist hmore⟩

theorem of_append (h : Peaceful size (queens ++ more)) : Peaceful size queens :=
  h.sublist (List.sublist_append_left queens more)

theorem perm (hperm : queens.Perm more) (h : Peaceful size queens) : Peaceful size more := by
  refine ⟨fun queen hqueen => h.on_board queen (hperm.mem_iff.mpr hqueen), ?_⟩
  refine (hperm.pairwise_iff ?_).mp h.pairwise
  intro a b hab
  rw [Square.attacks_comm]
  exact hab

theorem nodup (h : Peaceful size queens) : queens.Nodup := by
  refine h.pairwise.imp ?_
  intro a b hab heq
  rw [heq, Square.attacks_self] at hab
  cases hab

/-! ### Rows and columns -/

section Line

variable {lineOf : Square → Nat}

/-- Where queens on one line attack each other, no line holds two of them. -/
theorem nodup_map (h : Peaceful size queens)
    (hline : ∀ a b : Square, lineOf a = lineOf b → a.attacks b = true) :
    (queens.map lineOf).Nodup := by
  rw [List.Nodup, List.pairwise_map]
  refine h.pairwise.imp ?_
  intro a b hab hequal
  rw [hline a b hequal] at hab
  cases hab

theorem map_subperm_range (h : Peaceful size queens)
    (hline : ∀ a b : Square, lineOf a = lineOf b → a.attacks b = true)
    (hlt : ∀ queen ∈ queens, lineOf queen < size) :
    (queens.map lineOf).Subperm (List.range size) := by
  apply List.subperm_of_subset (h.nodup_map hline)
  intro line hmem
  obtain ⟨queen, hqueen, rfl⟩ := List.mem_map.mp hmem
  exact List.mem_range.mpr (hlt queen hqueen)

/-- As many queens as there are lines stand on one line each. -/
theorem map_perm_range (h : Peaceful size queens)
    (hline : ∀ a b : Square, lineOf a = lineOf b → a.attacks b = true)
    (hlt : ∀ queen ∈ queens, lineOf queen < size) (hlength : queens.length = size) :
    (queens.map lineOf).Perm (List.range size) := by
  apply (h.map_subperm_range hline hlt).perm_of_length_le
  simp [hlength]

end Line

theorem rows_nodup (h : Peaceful size queens) : (queens.map (·.row)).Nodup :=
  h.nodup_map fun _ _ => Square.attacks_of_row_eq

theorem length_le (h : Peaceful size queens) : queens.length ≤ size := by
  have hsubperm := h.map_subperm_range (fun _ _ => Square.attacks_of_row_eq)
    fun queen hqueen => (h.on_board queen hqueen).1
  simpa using hsubperm.length_le

theorem rows_perm (h : Peaceful size queens) (hlength : queens.length = size) :
    (queens.map (·.row)).Perm (List.range size) :=
  h.map_perm_range (fun _ _ => Square.attacks_of_row_eq)
    (fun queen hqueen => (h.on_board queen hqueen).1) hlength

theorem columns_perm (h : Peaceful size queens) (hlength : queens.length = size) :
    (queens.map (·.column)).Perm (List.range size) :=
  h.map_perm_range (fun _ _ => Square.attacks_of_column_eq)
    (fun queen hqueen => (h.on_board queen hqueen).2) hlength

theorem eq_of_attacks (h : Peaceful size queens) {a b : Square} (ha : a ∈ queens) (hb : b ∈ queens)
    (hab : a.attacks b = true) : a = b := by
  by_contra hne
  have hsymm : Std.Symm fun a b : Square => a.attacks b = false :=
    ⟨fun a b hab => (Square.attacks_comm b a).trans hab⟩
  have hapart := h.pairwise.forall ha hb hne
  rw [hab] at hapart
  cases hapart

/-- On boards of at most `2 ^ 63` rows such queens have no index in common. -/
theorem conflictFree (hsize : size ≤ UInt64.size / 2) (h : Peaceful size queens) :
    Square.conflictFree queens = true := by
  rw [Square.conflictFree_iff]
  refine h.pairwise.imp_of_mem ?_
  intro a b ha hb hab
  rw [Square.conflictsWith_eq_attacks hsize (h.on_board a ha) (h.on_board b hb)]
  exact hab

end Peaceful

namespace Placement

/-- What comes from the empty board by placing queens on squares that are open. -/
inductive Legal (size : Nat) : Placement → Prop
  | empty : Legal size (empty size)
  | place {placement : Placement} {square : Square} (h : Legal size placement)
      (hopen : square ∈ placement.openSquares) : Legal size (placement.place square)

section Legal

variable {size : Nat} {placement : Placement}

@[simp] theorem nextRow_place (placement : Placement) (square : Square) :
    (placement.place square).nextRow = square.row + 1 := by
  simp [nextRow]

theorem Legal.size_eq (h : Legal size placement) : placement.size = size := by
  induction h with
  | empty => rfl
  | place _ _ ih => exact ih

theorem Legal.mem_openSquares (h : Legal size placement) {square : Square} :
    square ∈ placement.openSquares ↔ (square.row < size ∧ square.column < size) ∧
      ∀ queen ∈ placement.queens, queen.attacks square = false := by
  induction h with
  | empty =>
      rw [mem_openSquares_empty]
      simp [Placement.empty]
  | @place placement queen _ _ ih =>
      rw [mem_openSquares_place, ih, queens_place]
      simp only [List.mem_append, List.mem_singleton, or_imp, forall_and, forall_eq]
      exact and_assoc

theorem Legal.peaceful (h : Legal size placement) : Peaceful size placement.queens := by
  induction h with
  | empty => exact Peaceful.nil size
  | place h hopen ih =>
      rw [queens_place, Peaceful.concat_iff]
      exact ⟨ih, h.mem_openSquares.mp hopen⟩

theorem Legal.mem_openSquares_iff (h : Legal size placement) {square : Square} :
    square ∈ placement.openSquares ↔ Peaceful size (placement.queens ++ [square]) := by
  rw [h.mem_openSquares, Peaceful.concat_iff]
  exact (and_iff_right h.peaceful).symm

/-- Placing leaves the squares that are in no conflict with the new queen. -/
theorem Legal.openSquares_place (hsize : size ≤ UInt64.size / 2) (h : Legal size placement)
    {square : Square} (hopen : square ∈ placement.openSquares) :
    (placement.place square).openSquares =
      placement.openSquares.filter fun other => !square.conflictsWith other := by
  have hsquare := (h.mem_openSquares.mp hopen).1
  apply Array.toList_inj.mp
  rw [Placement.place, Array.toList_filter, Array.toList_filter]
  apply List.filter_congr
  intro other hother
  have hboard := (h.mem_openSquares.mp (Array.mem_toList_iff.mp hother)).1
  rw [Square.conflictsWith_eq_attacks hsize hsquare hboard]

theorem Legal.nextRow_le (h : Legal size placement) : placement.nextRow ≤ size := by
  cases h with
  | empty => exact Nat.zero_le size
  | place h hopen =>
      rw [nextRow_place]
      exact (h.mem_openSquares.mp hopen).1.1

theorem mem_successors {next : Placement} :
    next ∈ placement.successors ↔
      ∃ square ∈ placement.openSquares, square.row = placement.nextRow ∧
        placement.place square = next := by
  simp [successors, and_assoc]

theorem mem_sortedSuccessors {next : Placement} :
    next ∈ placement.sortedSuccessors ↔ next ∈ placement.successors := List.mem_mergeSort

theorem Legal.of_mem_successors (h : Legal size placement) {next : Placement}
    (hnext : next ∈ placement.successors) : Legal size next := by
  obtain ⟨square, hopen, _, rfl⟩ := mem_successors.mp hnext
  exact h.place hopen

end Legal

/-- The placement with more queens, put there in their order. -/
def extend (root : Placement) (extra : List Square) : Placement := extra.foldl place root

@[simp] theorem extend_nil (root : Placement) : root.extend [] = root := rfl

theorem extend_concat (root : Placement) (extra : List Square) (square : Square) :
    root.extend (extra ++ [square]) = (root.extend extra).place square :=
  List.foldl_concat place root square extra

@[simp] theorem size_extend (root : Placement) (extra : List Square) :
    (root.extend extra).size = root.size := by
  induction extra generalizing root with
  | nil => rfl
  | cons square extra ih => exact ih (root.place square)

@[simp] theorem queens_extend (root : Placement) (extra : List Square) :
    (root.extend extra).queens = root.queens ++ extra := by
  induction extra generalizing root with
  | nil => simp
  | cons square extra ih =>
      have hrest := ih (root.place square)
      rw [queens_place, List.append_assoc] at hrest
      exact hrest

/-- Queens on the rows from the next one on, without a gap, leave the row below them next. -/
theorem nextRow_extend {root : Placement} {extra : List Square}
    (hrows : extra.map (·.row) = List.range' root.nextRow extra.length) :
    (root.extend extra).nextRow = root.nextRow + extra.length := by
  cases extra using List.reverseRecOn with
  | nil => simp
  | append_singleton extra square =>
      rw [List.length_append, List.length_singleton, List.range'_concat, List.map_append] at hrows
      have hlast := (List.append_inj' hrows rfl).2
      simp only [List.map_cons, List.map_nil, List.cons.injEq, and_true] at hlast
      rw [extend_concat, nextRow_place, hlast, List.length_append, List.length_singleton]
      omega

/-- What a search can come to from `root`: queens added on the next row, again and again. -/
def Below (root : Placement) : Placement → Prop :=
  Relation.ReflTransGen (fun above next => next ∈ above.successors) root

section Below

variable {size : Nat} {root placement : Placement}

theorem Legal.of_below (h : Legal size root) (hbelow : Below root placement) :
    Legal size placement := by
  induction hbelow with
  | refl => exact h
  | tail _ hnext ih => exact ih.of_mem_successors hnext

/-- Below a legal root are the placements with more queens on consecutive rows, as long as
these leave each other in peace. -/
theorem Legal.below_iff (h : Legal size root) :
    Below root placement ↔ ∃ extra, placement = root.extend extra ∧
      extra.map (·.row) = List.range' root.nextRow extra.length ∧
      Peaceful size (root.queens ++ extra) := by
  constructor
  · intro hbelow
    induction hbelow with
    | refl => exact ⟨[], rfl, rfl, by simpa using h.peaceful⟩
    | @tail placement next hbelow hnext ih =>
        obtain ⟨extra, rfl, hrows, _⟩ := ih
        obtain ⟨square, hopen, hrow, rfl⟩ := mem_successors.mp hnext
        refine ⟨extra ++ [square], (extend_concat root extra square).symm, ?_, ?_⟩
        · rw [List.map_append, List.length_append, List.length_singleton, List.range'_concat, hrows,
            List.map_singleton, hrow, nextRow_extend hrows, Nat.one_mul]
        · rw [(h.of_below hbelow).mem_openSquares_iff, queens_extend, List.append_assoc] at hopen
          exact hopen
  · rintro ⟨extra, rfl, hrows, hpeace⟩
    induction extra using List.reverseRecOn with
    | nil => exact .refl
    | append_singleton extra square ih =>
        rw [List.length_append, List.length_singleton, List.range'_concat, List.map_append] at hrows
        obtain ⟨hbefore, hlast⟩ := List.append_inj' hrows rfl
        simp only [List.map_cons, List.map_nil, List.cons.injEq, and_true, Nat.one_mul] at hlast
        rw [← List.append_assoc] at hpeace
        have hbelow := ih hbefore hpeace.of_append
        have hopen : square ∈ (root.extend extra).openSquares := by
          rw [(h.of_below hbelow).mem_openSquares_iff, queens_extend]
          exact hpeace
        have hrow : square.row = (root.extend extra).nextRow := by
          rw [nextRow_extend hbefore]
          exact hlast
        rw [extend_concat]
        exact hbelow.tail (mem_successors.mpr ⟨square, hopen, hrow, rfl⟩)

/-- A placement below a root is known by its queens. -/
theorem Legal.eq_of_queens_eq (h : Legal size root) {other : Placement}
    (hbelow : Below root placement) (hother : Below root other)
    (hqueens : placement.queens = other.queens) : placement = other := by
  obtain ⟨extra, rfl, _, _⟩ := h.below_iff.mp hbelow
  obtain ⟨more, rfl, _, _⟩ := h.below_iff.mp hother
  rw [queens_extend, queens_extend] at hqueens
  rw [List.append_cancel_left hqueens]

end Below

end Placement

end QueensPuzzle
