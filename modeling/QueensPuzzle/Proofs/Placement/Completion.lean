import Mathlib.Data.List.Perm.Basic
import QueensPuzzle.Proofs.Placement.Legal

/-! # Completing a placement

Queens that complete a placement stand on the rows without a queen, one on each. A search
goes on from the row below the last queen, so it comes to them only where the rows without
a queen are the ones from there on. Where they are, the order of the rows is an order in
which the queens can be placed.
-/

namespace QueensPuzzle.Placement

/-- The rows without a queen, from the top. -/
def freeRows (placement : Placement) : List Nat :=
  (List.range placement.size).filter fun row => placement.queens.all (·.row != row)

/-- Whether the rows without a queen are the ones from the next row on. -/
def IsGapless (placement : Placement) : Prop :=
  placement.freeRows = List.range' placement.nextRow (placement.size - placement.queenCount)

instance (placement : Placement) : Decidable placement.IsGapless :=
  inferInstanceAs (Decidable (_ = _))

/-- Whether more queens, in whatever rows, could stand beside those that were placed. -/
def IsCompletable (placement : Placement) : Prop :=
  ∃ extra, (placement.queens ++ extra).length = placement.size ∧
    Peaceful placement.size (placement.queens ++ extra)

/-- `last` has the queens of `root` and after them one queen for each row without one, in the
order of the rows. -/
structure Completes (root last : Placement) : Prop where
  added : ∃ extra, last.queens = root.queens ++ extra ∧ extra.map (·.row) = root.freeRows
  length_eq : last.queens.length = root.size
  peaceful : Peaceful root.size last.queens
  conflictFree : root.size ≤ UInt64.size / 2 → Square.conflictFree last.queens = true

theorem mem_freeRows {placement : Placement} {row : Nat} :
    row ∈ placement.freeRows ↔ row < placement.size ∧ row ∉ placement.queens.map (·.row) := by
  simp [freeRows]

theorem freeRows_pairwise (placement : Placement) : placement.freeRows.Pairwise (· < ·) :=
  List.pairwise_lt_range.filter _

theorem eq_freeRows {placement : Placement} {rows : List Nat} (hperm : rows.Perm placement.freeRows)
    (hrows : rows.Pairwise (· < ·)) : rows = placement.freeRows := by
  refine hperm.eq_of_pairwise ?_ hrows placement.freeRows_pairwise
  intro a b _ _ hab hba
  omega

section Legal

variable {size : Nat} {root : Placement} {extra : List Square}

/-- Queens that complete a placement stand on the rows without a queen. -/
theorem rows_perm_freeRows (hsize : root.size = size)
    (hpeace : Peaceful size (root.queens ++ extra))
    (hlength : (root.queens ++ extra).length = size) :
    (extra.map (·.row)).Perm root.freeRows := by
  have hnodup := hpeace.rows_nodup
  rw [List.map_append, List.nodup_append] at hnodup
  rw [List.perm_ext_iff_of_nodup hnodup.2.1 (root.freeRows_pairwise.imp Nat.ne_of_lt)]
  intro row
  have hall := (hpeace.rows_perm hlength).mem_iff (a := row)
  rw [List.map_append, List.mem_append, List.mem_range] at hall
  rw [mem_freeRows, hsize]
  constructor
  · intro hrow
    refine ⟨hall.mp (Or.inr hrow), ?_⟩
    intro hold
    exact hnodup.2.2 row hold row hrow rfl
  · rintro ⟨hlt, hfree⟩
    exact (hall.mpr hlt).resolve_left hfree

theorem exists_ordered (hsize : root.size = size) (hpeace : Peaceful size (root.queens ++ extra))
    (hlength : (root.queens ++ extra).length = size) :
    ∃ ordered : List Square, ordered.Perm extra ∧ ordered.map (·.row) = root.freeRows := by
  have hperm := (rows_perm_freeRows hsize hpeace hlength).symm
  rw [← congrFun₂ (List.eq_map_comp_perm (·.row)) root.freeRows extra] at hperm
  obtain ⟨ordered, hrows, hordered⟩ := hperm
  exact ⟨ordered, hordered, hrows.symm⟩

theorem Legal.isComplete_extend (h : Legal size root) :
    (root.extend extra).isComplete = true ↔ (root.queens ++ extra).length = size := by
  rw [isComplete, queenCount, queens_extend, size_extend, h.size_eq, beq_iff_eq]

/-- Queens on consecutive rows that complete a placement leave no row out. -/
theorem Legal.map_row_eq_freeRows (h : Legal size root)
    (hrows : extra.map (·.row) = List.range' root.nextRow extra.length)
    (hpeace : Peaceful size (root.queens ++ extra))
    (hlength : (root.queens ++ extra).length = size) : extra.map (·.row) = root.freeRows := by
  refine eq_freeRows (rows_perm_freeRows h.size_eq hpeace hlength) ?_
  rw [hrows]
  exact List.pairwise_lt_range'

theorem Legal.completes_of_below (h : Legal size root) {last : Placement}
    (hbelow : Below root last) (hcomplete : last.isComplete = true) : Completes root last := by
  obtain ⟨extra, rfl, hrows, hpeace⟩ := h.below_iff.mp hbelow
  have hlength := h.isComplete_extend.mp hcomplete
  have hqueens := queens_extend root extra
  refine ⟨⟨extra, hqueens, h.map_row_eq_freeRows hrows hpeace hlength⟩, ?_, ?_, ?_⟩
  · rw [hqueens, h.size_eq]
    exact hlength
  · rw [hqueens, h.size_eq]
    exact hpeace
  · rw [hqueens, h.size_eq]
    exact fun hsize => hpeace.conflictFree hsize

/-- A search can come to a complete placement exactly if the root leaves no gap behind and
can be completed at all. -/
theorem Legal.exists_complete_below_iff (h : Legal size root) :
    (∃ last, Below root last ∧ last.isComplete = true) ↔ root.IsGapless ∧ root.IsCompletable := by
  constructor
  · rintro ⟨last, hbelow, hcomplete⟩
    obtain ⟨extra, rfl, hrows, hpeace⟩ := h.below_iff.mp hbelow
    have hlength := h.isComplete_extend.mp hcomplete
    refine ⟨?_, extra, ?_, ?_⟩
    · have hcount : extra.length = root.size - root.queenCount := by
        rw [h.size_eq, ← hlength, List.length_append, queenCount]
        omega
      rw [IsGapless, ← h.map_row_eq_freeRows hrows hpeace hlength, hrows, hcount]
    · rw [h.size_eq]
      exact hlength
    · rw [h.size_eq]
      exact hpeace
  · rintro ⟨hgapless, extra, hlength, hpeace⟩
    -- `extra` may be in any order, but a search adds its queens row by row.
    obtain ⟨ordered, hperm, hrows⟩ := exists_ordered rfl hpeace hlength
    rw [h.size_eq] at hlength hpeace
    have hcount : ordered.length = root.size - root.queenCount := by
      rw [hperm.length_eq, h.size_eq, ← hlength, List.length_append, queenCount]
      omega
    refine ⟨root.extend ordered, h.below_iff.mpr ⟨ordered, rfl, ?_, ?_⟩, ?_⟩
    · rw [hrows, hgapless, hcount]
    · exact hpeace.perm (hperm.symm.append_left root.queens)
    · rw [h.isComplete_extend, ← hlength, List.length_append, List.length_append,
        hperm.length_eq]

end Legal

theorem isGapless_empty (size : Nat) : (empty size).IsGapless := by
  simp [IsGapless, freeRows, nextRow, queenCount, empty, List.range_eq_range']

theorem isCompletable_empty {size : Nat} :
    (empty size).IsCompletable ↔
      ∃ queens : List Square, queens.length = size ∧ Peaceful size queens := Iff.rfl

end QueensPuzzle.Placement
