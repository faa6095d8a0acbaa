import QueensPuzzle.Proofs.Board.Agreement

/-! # Toggling and taking back

No queen stands where another one blocks. So a cell whose queen is lifted off is empty, and a
second toggle takes the first one back, up to the place of the queen among the others. Where
neither of two cells blocks the other, toggling the one does not change what the other shows, and
it does not matter which is toggled first. None of this looks at where the cells are; the squares
come in only where attacks have to be blocks.
-/

namespace QueensPuzzle

variable {size : Nat} {squares : List Square} {square other : Square}

namespace Cell

@[simp] theorem blocks_self (a : Cell) : a.blocks a = true := by simp [blocks]

theorem blocks_comm (a b : Cell) : a.blocks b = b.blocks a := by
  rw [Bool.eq_iff_iff]
  simp only [blocks, sharesDiagonal, Bool.or_eq_true, beq_iff_eq]
  omega

theorem ne_of_blocks_eq_false {a b : Cell} (h : a.blocks b = false) : a ≠ b := by
  intro heq
  rw [heq, blocks_self] at h
  cases h

end Cell

namespace Position

variable {position : Position} {cell a b : Cell}

theorem occupancy_eq_empty_iff_forall :
    position.occupancy cell = .empty ↔ ∀ queen ∈ position.queens, queen.blocks cell = false := by
  rw [occupancy_eq_empty_iff, ← Bool.not_eq_true, isBlocked, List.any_eq_true]
  simp [Cell.blocks]

/-! ## What a toggle does -/

/-- The queens once a cell was toggled that showed this. -/
def changed (cell : Cell) (queens : List Cell) : Occupancy → List Cell
  | .empty => queens ++ [cell]
  | .queen => queens.filter (· != cell)
  | .blocked => queens

theorem queens_toggle (position : Position) (cell : Cell) :
    (position.toggle cell).2.queens =
      changed cell position.queens (position.occupancy cell) := by
  unfold toggle
  cases position.occupancy cell <;> rfl

theorem mem_changed_of_ne {queens : List Cell} (hne : b ≠ a) (before : Occupancy) :
    b ∈ changed a queens before ↔ b ∈ queens := by
  cases before <;> simp [changed, hne]

/-- Toggling a cell does not change what a cell shows that it does not block. -/
theorem occupancy_toggle_of_not_blocks (h : a.blocks b = false) :
    (position.toggle a).2.occupancy b = position.occupancy b := by
  have hne : b ≠ a := (Cell.ne_of_blocks_eq_false h).symm
  have hqueen : (position.toggle a).2.occupancy b = .queen ↔ position.occupancy b = .queen := by
    rw [occupancy_eq_queen_iff, occupancy_eq_queen_iff, queens_toggle]
    exact mem_changed_of_ne hne _
  have hempty : (position.toggle a).2.occupancy b = .empty ↔ position.occupancy b = .empty := by
    rw [occupancy_eq_empty_iff_forall, occupancy_eq_empty_iff_forall, queens_toggle]
    constructor
    · intro hnone queen hqueen
      by_cases ha : queen = a
      · rw [ha]
        exact h
      · exact hnone queen ((mem_changed_of_ne ha _).mpr hqueen)
    · intro hnone queen hqueen
      by_cases ha : queen = a
      · rw [ha]
        exact h
      · exact hnone queen ((mem_changed_of_ne ha _).mp hqueen)
  cases hbefore : position.occupancy b with
  | queen => exact hqueen.mpr hbefore
  | empty => exact hempty.mpr hbefore
  | blocked =>
      rw [occupancy_eq_blocked_iff] at hbefore ⊢
      exact ⟨mt hqueen.mp hbefore.1, mt hempty.mp hbefore.2⟩

theorem changed_comm (hne : a ≠ b) (queens : List Cell) (onA onB : Occupancy) :
    (changed b (changed a queens onA) onB).Perm (changed a (changed b queens onB) onA) := by
  cases onA with
  | blocked => exact .refl _
  | empty =>
      cases onB with
      | blocked => exact .refl _
      | empty =>
          simp only [changed, List.append_assoc]
          exact List.perm_append_comm.append_left queens
      | queen => simp [changed, List.filter_append, hne]
  | queen =>
      cases onB with
      | blocked => exact .refl _
      | empty => simp [changed, List.filter_append, hne.symm]
      | queen =>
          simp only [changed, List.filter_filter, Bool.and_comm]
          exact .refl _

/-- Cells that do not block each other may be toggled in either order. -/
theorem toggle_comm_of_not_blocks (h : a.blocks b = false) :
    ((position.toggle a).2.toggle b).2.queens.Perm ((position.toggle b).2.toggle a).2.queens := by
  have hb : (position.toggle a).2.occupancy b = position.occupancy b :=
    occupancy_toggle_of_not_blocks h
  have ha : (position.toggle b).2.occupancy a = position.occupancy a :=
    occupancy_toggle_of_not_blocks ((Cell.blocks_comm b a).trans h)
  rw [queens_toggle, queens_toggle, queens_toggle, queens_toggle, ha, hb]
  exact changed_comm (Cell.ne_of_blocks_eq_false h) _ _ _

/-! ## Queens that do not block each other -/

/-- No queen is on a cell that another one blocks. -/
def Apart (position : Position) : Prop :=
  position.queens.Pairwise fun a b => a.blocks b = false

theorem apart_ofSquares (hsize : size < UInt64.size / 2) (h : Peaceful size squares) :
    (ofSquares squares size).Apart := by
  rw [Apart, ofSquares, List.pairwise_map]
  refine h.pairwise.imp_of_mem ?_
  intro a b ha hb hab
  rw [Cell.blocks_of hsize (h.on_board a ha) (h.on_board b hb)]
  exact hab

namespace Apart

theorem nodup (h : position.Apart) : position.queens.Nodup :=
  h.imp Cell.ne_of_blocks_eq_false

theorem toggle (h : position.Apart) (cell : Cell) : (position.toggle cell).2.Apart := by
  rw [Apart, queens_toggle]
  cases hbefore : position.occupancy cell with
  | blocked => exact h
  | queen => exact h.sublist List.filter_sublist
  | empty =>
      rw [changed, List.pairwise_append]
      refine ⟨h, List.pairwise_singleton _ _, ?_⟩
      intro queen hqueen last hlast
      rw [List.mem_singleton.mp hlast]
      exact occupancy_eq_empty_iff_forall.mp hbefore queen hqueen

/-- A cell is empty once its queen is lifted off: no other queen blocks it. -/
theorem occupancy_toggle_of_queen (h : position.Apart) (hqueen : position.occupancy cell = .queen) :
    (position.toggle cell).2.occupancy cell = .empty := by
  rw [occupancy_eq_empty_iff_forall, queens_toggle, hqueen]
  intro queen hmem
  rw [changed, List.mem_filter, bne_iff_ne] at hmem
  have hsymm : Std.Symm fun a b : Cell => a.blocks b = false :=
    ⟨fun a b hab => (Cell.blocks_comm b a).trans hab⟩
  exact h.forall hmem.1 ((occupancy_eq_queen_iff _ _).mp hqueen) hmem.2

end Apart

theorem not_mem_queens_of_empty (h : position.occupancy cell = .empty) :
    cell ∉ position.queens := by
  intro hmem
  rw [(occupancy_eq_queen_iff position cell).mpr hmem] at h
  cases h

theorem occupancy_toggle_of_empty (h : position.occupancy cell = .empty) :
    (position.toggle cell).2.occupancy cell = .queen := by
  rw [occupancy_eq_queen_iff, queens_toggle, h]
  exact List.mem_append_right _ (List.mem_singleton_self cell)

/-! ## Toggling twice -/

theorem toggle_of_blocked (h : position.occupancy cell = .blocked) :
    position.toggle cell = (.blocked, position) := by
  rw [toggle, h]

/-- A queen that is put is lifted off again. -/
theorem toggle_toggle_of_empty (h : position.occupancy cell = .empty) :
    (position.toggle cell).2.toggle cell = (.queen, position) := by
  have hqueen := occupancy_toggle_of_empty h
  have hqueens : ((position.toggle cell).2.toggle cell).2.queens = position.queens := by
    rw [queens_toggle, hqueen, queens_toggle, h]
    simp only [changed, List.filter_append, List.filter_singleton, bne_self_eq_false, cond_false,
      List.append_nil, List.filter_eq_self, bne_iff_ne]
    intro queen hmem heq
    exact not_mem_queens_of_empty h (heq ▸ hmem)
  exact Prod.ext hqueen (congrArg mk hqueens)

/-- A queen that is lifted off is put again, behind the others. -/
theorem Apart.toggle_toggle_of_queen (h : position.Apart)
    (hqueen : position.occupancy cell = .queen) :
    (position.toggle cell).2.toggle cell = (.empty, ⟨position.queens.erase cell ++ [cell]⟩) := by
  have hempty := h.occupancy_toggle_of_queen hqueen
  have hqueens : ((position.toggle cell).2.toggle cell).2.queens =
      position.queens.erase cell ++ [cell] := by
    rw [queens_toggle, hempty, queens_toggle, hqueen, h.nodup.erase_eq_filter]
    rfl
  exact Prod.ext hempty (congrArg mk hqueens)

theorem Apart.toggle_toggle_perm (h : position.Apart) (cell : Cell) :
    ((position.toggle cell).2.toggle cell).2.queens.Perm position.queens := by
  cases hbefore : position.occupancy cell with
  | empty => rw [toggle_toggle_of_empty hbefore]
  | blocked => rw [toggle_of_blocked hbefore, toggle_of_blocked hbefore]
  | queen =>
      have hmem := (occupancy_eq_queen_iff position cell).mp hbefore
      rw [h.toggle_toggle_of_queen hbefore]
      exact List.perm_append_comm.trans (List.perm_cons_erase hmem).symm

/-- The second toggle changes something, unless the cell is blocked. -/
theorem Apart.toggle_toggle_eq_iff (h : position.Apart) :
    ((position.toggle cell).2.toggle cell).2 = (position.toggle cell).2 ↔
      position.occupancy cell = .blocked := by
  cases hbefore : position.occupancy cell with
  | blocked =>
      rw [toggle_of_blocked hbefore, toggle_of_blocked hbefore]
      exact iff_of_true rfl rfl
  | empty =>
      refine iff_of_false ?_ nofun
      rw [toggle_toggle_of_empty hbefore]
      intro hsame
      have hqueens := congrArg (List.length ∘ queens) hsame
      simp [queens_toggle, hbefore, changed] at hqueens
  | queen =>
      refine iff_of_false ?_ nofun
      rw [h.toggle_toggle_of_queen hbefore]
      intro hsame
      apply not_mem_queens_of_empty (h.occupancy_toggle_of_queen hbefore)
      rw [← hsame]
      exact List.mem_append_right _ (List.mem_singleton_self cell)

/-! ## Boards -/

/-- The positions that come up on a board when its cells are toggled: from an empty one, or from
queens on the board that are in no conflict. Three times the size has to be a signed word for the
latter, so that the indices of the cells are. -/
inductive Reached (size : Nat) : Position → Prop
  | empty : Reached size .empty
  | ofSquares {squares : List Square} (hsize : 3 * size < UInt64.size / 2)
      (hboard : ∀ queen ∈ squares, queen.row < size ∧ queen.column < size)
      (hfree : Square.conflictFree squares = true) : Reached size (.ofSquares squares size)
  | toggle {position : Position} {square : Square} (h : Reached size position)
      (hsquare : square.row < size ∧ square.column < size) :
      Reached size (position.toggle (.of square.row square.column size)).2

theorem Reached.apart (h : Reached size position) : position.Apart := by
  induction h with
  | empty => exact List.Pairwise.nil
  | ofSquares hsize hboard hfree =>
      have hword : size < UInt64.size / 2 := by omega
      exact apart_ofSquares hword
        ((peaceful_iff_conflictFree (Nat.le_of_lt hword)).mpr ⟨hboard, hfree⟩)
  | toggle _ _ ih => exact ih.toggle _

/-- Toggling a square of the board twice gives back the queens, and what each square shows. A queen
that was put is gone again, with the others in their places; a queen that was lifted off stands
again, behind the others; an attacked square stays as it is. Squares that are in no conflict may be
toggled in either order, whatever they show. -/
theorem toggling_undoes_itself (h : Reached size position)
    (hsquare : square.row < size ∧ square.column < size) :
    let cell := Cell.of square.row square.column size
    let once := (position.toggle cell).2
    let twice := (once.toggle cell).2
    (twice.queens.Perm position.queens ∧ ∀ other : Square,
      other.row < size ∧ other.column < size →
        twice.occupancy (.of other.row other.column size) =
          position.occupancy (.of other.row other.column size)) ∧
    (position.occupancy cell = .empty → once.occupancy cell = .queen ∧ twice = position) ∧
    (position.occupancy cell = .queen →
      once.occupancy cell = .empty ∧ twice.queens = position.queens.erase cell ++ [cell]) ∧
    (position.occupancy cell = .blocked → once = position ∧ twice = position) ∧
    (3 * size < UInt64.size / 2 → ∀ other : Square, other.row < size ∧ other.column < size →
      square.conflictsWith other = false →
        let another := Cell.of other.row other.column size
        (once.toggle another).2.queens.Perm
          ((position.toggle another).2.toggle cell).2.queens) := by
  intro cell once twice
  have hapart := h.apart
  have hperm : twice.queens.Perm position.queens := hapart.toggle_toggle_perm cell
  refine ⟨⟨hperm, ?_⟩, ?_, ?_, ?_, ?_⟩
  · intro other _
    exact occupancy_congr _ fun queen => hperm.mem_iff
  · intro hempty
    have htwice : once.toggle cell = (.queen, position) := toggle_toggle_of_empty hempty
    exact ⟨occupancy_toggle_of_empty hempty, congrArg Prod.snd htwice⟩
  · intro hqueen
    have htwice : once.toggle cell = (.empty, ⟨position.queens.erase cell ++ [cell]⟩) :=
      hapart.toggle_toggle_of_queen hqueen
    exact ⟨hapart.occupancy_toggle_of_queen hqueen, congrArg (·.2.queens) htwice⟩
  · intro hblocked
    have honce : once = position := congrArg Prod.snd (toggle_of_blocked hblocked)
    have htwice : twice = once := by
      simp only [twice, honce]
      exact honce
    exact ⟨honce, htwice.trans honce⟩
  · intro hsize other hother hconflict another
    have hword : size < UInt64.size / 2 := by omega
    rw [Square.conflictsWith_eq_attacks (Nat.le_of_lt hword) hsquare hother] at hconflict
    exact toggle_comm_of_not_blocks ((Cell.blocks_of hword hsquare hother).trans hconflict)

/-- Four queens in peace: one of those in the middle is lifted off and put again. -/
theorem four_queens_undone :
    let position := ofSquares [⟨0, 1⟩, ⟨1, 3⟩, ⟨2, 0⟩, ⟨3, 2⟩] 4
    let once := (position.toggle (.of 1 3 4)).2
    once.occupancy (.of 1 3 4) = .empty ∧
      (once.toggle (.of 1 3 4)).2 = ofSquares [⟨0, 1⟩, ⟨2, 0⟩, ⟨3, 2⟩, ⟨1, 3⟩] 4 ∧
      (once.toggle (.of 2 0 4)).2.queens.Perm
        ((position.toggle (.of 2 0 4)).2.toggle (.of 1 3 4)).2.queens := by
  intro position once
  have hreached : Reached 4 position := .ofSquares (by decide) (by decide) (by decide)
  have hsquare : (⟨1, 3⟩ : Square).row < 4 ∧ (⟨1, 3⟩ : Square).column < 4 := by decide
  have hqueen : position.occupancy (.of 1 3 4) = .queen := by decide
  obtain ⟨_, _, hlifted, _, hcommute⟩ := toggling_undoes_itself hreached hsquare
  obtain ⟨hempty, htwice⟩ := hlifted hqueen
  exact ⟨hempty, congrArg mk htwice, hcommute (by decide) ⟨2, 0⟩ (by decide) (by decide)⟩

/-- On a board so large that its size is no signed word, a rising diagonal may have the index of a
falling one. Then a queen that is in no conflict blocks the cell of another, which does not take its
queen back, and it matters which of two empty cells is toggled first. -/
theorem far_squares_not_undone :
    let size := 9223372036854775813
    let near : Square := ⟨0, 0⟩
    let far : Square := ⟨1, 9223372036854775804⟩
    let nearCell := Cell.of near.row near.column size
    let farCell := Cell.of far.row far.column size
    let position := ofSquares [near, far] size
    let once := (position.toggle nearCell).2
    ((∀ queen ∈ [near, far], queen.row < size ∧ queen.column < size) ∧
      Square.conflictFree [near, far] = true ∧
      position.occupancy nearCell = .queen ∧ once.occupancy nearCell = .blocked ∧
      ¬(once.toggle nearCell).2.queens.Perm position.queens) ∧
    empty.occupancy nearCell = .empty ∧ empty.occupancy farCell = .empty ∧
      ¬((empty.toggle nearCell).2.toggle farCell).2.queens.Perm
        ((empty.toggle farCell).2.toggle nearCell).2.queens := by
  decide

end Position

end QueensPuzzle
