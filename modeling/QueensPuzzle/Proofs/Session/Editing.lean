import QueensPuzzle.Proofs.Board.Occupancy
import QueensPuzzle.Session.Editing

/-! # What holds of every editing session

Whatever is toggled, cleared or drawn, the queens of a session are on the board and in no
conflict. So a toggle does one of three things, by what the square shows, and there are as many
queens as rows exactly if every row and every column has one queen.
-/

namespace QueensPuzzle

variable {size : Nat} {squares : List Square}

/-- One queen in every row and in every column, and no two on a diagonal. -/
structure Fills (size : Nat) (squares : List Square) : Prop where
  rows : ∀ row < size, ∃! queen, queen ∈ squares ∧ queen.row = row
  columns : ∀ column < size, ∃! queen, queen ∈ squares ∧ queen.column = column
  diagonals : squares.Pairwise fun a b =>
    a.diagonal ≠ b.diagonal ∧ a.antiDiagonal ≠ b.antiDiagonal

namespace Peaceful

theorem existsUnique_of_perm {lineOf : Square → Nat} (h : Peaceful size squares)
    (hline : ∀ a b : Square, lineOf a = lineOf b → a.attacks b = true)
    (hperm : (squares.map lineOf).Perm (List.range size)) {line : Nat} (hlt : line < size) :
    ∃! queen, queen ∈ squares ∧ lineOf queen = line := by
  obtain ⟨queen, hqueen, rfl⟩ := List.mem_map.mp (hperm.mem_iff.mpr (List.mem_range.mpr hlt))
  refine ⟨queen, ⟨hqueen, rfl⟩, ?_⟩
  rintro other ⟨hother, hequal⟩
  exact h.eq_of_attacks hother hqueen (hline other queen hequal)

theorem conflictsWith_pairwise (hsize : size ≤ UInt64.size / 2) (h : Peaceful size squares) :
    squares.Pairwise fun a b => a.conflictsWith b = false :=
  (Square.conflictFree_iff squares).mp (h.conflictFree hsize)

/-- Queens in peace are as many as there are rows exactly if they fill the board. -/
theorem length_eq_iff_fills (hsize : size ≤ UInt64.size / 2) (h : Peaceful size squares) :
    squares.length = size ↔ Fills size squares := by
  constructor
  · intro hlength
    refine ⟨?_, ?_, ?_⟩
    · intro row hrow
      exact h.existsUnique_of_perm (fun _ _ => Square.attacks_of_row_eq) (h.rows_perm hlength) hrow
    · intro column hcolumn
      exact h.existsUnique_of_perm (fun _ _ => Square.attacks_of_column_eq)
        (h.columns_perm hlength) hcolumn
    · refine (h.conflictsWith_pairwise hsize).imp ?_
      intro a b hab
      simp only [Square.conflictsWith, Bool.or_eq_false_iff, beq_eq_false_iff_ne] at hab
      exact ⟨hab.1.2, hab.2⟩
  · intro hfills
    have hrows : List.range size ⊆ squares.map (·.row) := by
      intro row hrow
      obtain ⟨queen, ⟨hqueen, rfl⟩, _⟩ := hfills.rows row (List.mem_range.mp hrow)
      exact List.mem_map_of_mem hqueen
    have hle := (List.subperm_of_subset List.nodup_range hrows).length_le
    rw [List.length_range, List.length_map] at hle
    exact Nat.le_antisymm h.length_le hle

end Peaceful

namespace Session.Editing

/-- The sessions that come up on a board: a new one, and what becomes of it. -/
inductive Reachable (size : Nat) : Editing → Prop
  | new : Reachable size (.new size)
  | toggle {session : Editing} (h : Reachable size session) (square : Square) :
      Reachable size (session.toggle square.row square.column).2
  | clear {session : Editing} (h : Reachable size session) : Reachable size session.clear
  | board {session : Editing} (h : Reachable size session) : Reachable size session.board.2

/-- The cells at hand are those of the board, each queen is the cell of its square, and the
queens leave each other in peace. -/
structure Sound (size : Nat) (session : Editing) : Prop where
  cells : session.cells.Serves size
  position_eq : session.position = .ofSquares session.position.squares size
  peaceful : Peaceful size session.position.squares

variable {session : Editing}

theorem sound_new (size : Nat) : (new size).Sound size :=
  ⟨CellCache.serves_new size, rfl, Peaceful.nil size⟩

namespace Sound

variable {square : Square}

theorem toggle_of_off_board (h : session.Sound size)
    (hsquare : ¬(square.row < size ∧ square.column < size)) :
    session.toggle square.row square.column = (.blocked, session) := by
  rw [toggle, Editing.size, h.cells.size_eq, if_neg hsquare]

/-- A toggle on the board does what the square shows. -/
theorem toggle_of_on_board (h : session.Sound size)
    (hsquare : square.row < size ∧ square.column < size) :
    let before := (Position.ofSquares session.position.squares size).occupancy
      (.of square.row square.column size)
    session.toggle square.row square.column =
      (before, ⟨.ofSquares (Position.toggled session.position.squares square before) size,
        (CellCache.get square.row square.column session.cells).2⟩) := by
  intro before
  rw [toggle, Editing.size, h.cells.size_eq, if_pos hsquare, ← Position.toggle_ofSquares]
  simp only [before, ← h.position_eq, ← h.cells.get_fst square.row square.column]
  rfl

theorem toggle (hsize : size < UInt64.size / 2) (h : session.Sound size) (square : Square) :
    (session.toggle square.row square.column).2.Sound size := by
  by_cases hsquare : square.row < size ∧ square.column < size
  · have hpeace := Position.peaceful_toggled hsize h.peaceful hsquare
    rw [h.toggle_of_on_board hsquare]
    exact ⟨h.cells.get_snd _ _, by rw [Position.squares_ofSquares],
      by rw [Position.squares_ofSquares]; exact hpeace⟩
  · rw [h.toggle_of_off_board hsquare]
    exact h

theorem clear (h : session.Sound size) : session.clear.Sound size :=
  ⟨h.cells, rfl, Peaceful.nil size⟩

theorem board (h : session.Sound size) : session.board.2.Sound size :=
  ⟨h.cells.describe session.position, h.position_eq, h.peaceful⟩

theorem toggle_eq_queen_iff (h : session.Sound size) (square : Square) :
    (session.toggle square.row square.column).1 = .queen ↔ square ∈ session.position.squares := by
  by_cases hsquare : square.row < size ∧ square.column < size
  · rw [h.toggle_of_on_board hsquare]
    exact Position.occupancy_ofSquares_eq_queen_iff
  · rw [h.toggle_of_off_board hsquare]
    constructor
    · nofun
    · intro hmem
      exact absurd (h.peaceful.on_board square hmem) hsquare

theorem toggle_eq_blocked_iff (hsize : size < UInt64.size / 2) (h : session.Sound size)
    (square : Square) :
    (session.toggle square.row square.column).1 = .blocked ↔
      ¬(square.row < size ∧ square.column < size) ∨ square ∉ session.position.squares ∧
        ∃ queen ∈ session.position.squares, queen.conflictsWith square = true := by
  by_cases hsquare : square.row < size ∧ square.column < size
  · rw [h.toggle_of_on_board hsquare, or_iff_right (not_not_intro hsquare),
      Position.occupancy_ofSquares_eq_blocked_iff hsize h.peaceful.on_board hsquare]
    refine and_congr_right' (exists_congr fun queen => and_congr_right fun hqueen => ?_)
    rw [Square.conflictsWith_eq_attacks (Nat.le_of_lt hsize) (h.peaceful.on_board queen hqueen)
      hsquare]
  · rw [h.toggle_of_off_board hsquare]
    exact iff_of_true rfl (.inl hsquare)

theorem squares_toggle (h : session.Sound size) (square : Square) :
    let (before, next) := session.toggle square.row square.column
    next.position.squares =
      match before with
      | .empty => session.position.squares ++ [square]
      | .queen => session.position.squares.erase square
      | .blocked => session.position.squares := by
  by_cases hsquare : square.row < size ∧ square.column < size
  · rw [h.toggle_of_on_board hsquare]
    rw [h.peaceful.nodup.erase_eq_filter square]
    cases (Position.ofSquares session.position.squares size).occupancy _ with
    | empty => exact Position.squares_ofSquares _ _
    | queen => exact Position.squares_ofSquares _ _
    | blocked => exact Position.squares_ofSquares _ _
  · rw [h.toggle_of_off_board hsquare]

theorem isSolved_iff (hsize : size ≤ UInt64.size / 2) (h : session.Sound size) :
    session.isSolved = true ↔ Fills size session.position.squares := by
  rw [← h.peaceful.length_eq_iff_fills hsize, isSolved, queenCount, Editing.size, h.cells.size_eq,
    beq_iff_eq, Position.squares, List.length_map, Position.queenCount]

end Sound

theorem Reachable.sound (hsize : size < UInt64.size / 2) (h : Reachable size session) :
    session.Sound size := by
  induction h with
  | new => exact sound_new size
  | toggle _ square ih => exact ih.toggle hsize square
  | clear _ ih => exact ih.clear
  | board _ ih => exact ih.board

/-- In every session the queens are the cells of different squares on the board, none in conflict
with another, so they are no more than the rows. A toggle lifts off exactly the queen that is
there; it changes nothing if the square is off the board, or has no queen and is in conflict
with one; otherwise it puts a queen there and changes nothing else. A session counts as solved
exactly if every row and every column has one queen and no diagonal has two. Three times the
size has to be a signed word, so that the indices of the cells are. -/
theorem reachable_keeps_rules (hsize : 3 * size < UInt64.size / 2) (h : Reachable size session) :
    let squares := session.position.squares
    (session.position = .ofSquares squares size ∧
      (∀ queen ∈ squares, queen.row < size ∧ queen.column < size) ∧ squares.Nodup ∧
      squares.Pairwise (fun a b => a.conflictsWith b = false) ∧
      session.queenCount = squares.length ∧ session.queenCount ≤ size) ∧
    (∀ square : Square,
      let (before, next) := session.toggle square.row square.column
      (before = .queen ↔ square ∈ squares) ∧
      (before = .blocked ↔ ¬(square.row < size ∧ square.column < size) ∨
        square ∉ squares ∧ ∃ queen ∈ squares, queen.conflictsWith square = true) ∧
      next.position.squares =
        match before with
        | .empty => squares ++ [square]
        | .queen => squares.erase square
        | .blocked => squares) ∧
    (session.isSolved = true ↔ Fills size squares) := by
  have hword : size < UInt64.size / 2 := by omega
  have hsound := h.sound hword
  have hpeace := hsound.peaceful
  have hcount : session.queenCount = session.position.squares.length := by
    rw [Position.squares, List.length_map]
    rfl
  intro squares
  refine ⟨⟨hsound.position_eq, hpeace.on_board, hpeace.nodup,
    hpeace.conflictsWith_pairwise (Nat.le_of_lt hword), hcount, ?_⟩, ?_,
    hsound.isSolved_iff (Nat.le_of_lt hword)⟩
  · rw [hcount]
    exact hpeace.length_le
  · intro square
    exact ⟨hsound.toggle_eq_queen_iff square, hsound.toggle_eq_blocked_iff hword square,
      hsound.squares_toggle square⟩

/-- A session in which squares were toggled in turn. -/
def edited (size : Nat) (squares : List Square) : Editing :=
  squares.foldl (fun session square => (session.toggle square.row square.column).2) (new size)

theorem edited_concat (size : Nat) (squares : List Square) (square : Square) :
    edited size (squares ++ [square]) =
      ((edited size squares).toggle square.row square.column).2 :=
  List.foldl_concat _ _ _ _

theorem reachable_edited (size : Nat) (squares : List Square) :
    Reachable size (edited size squares) := by
  induction squares using List.reverseRecOn with
  | nil => exact .new
  | append_singleton squares square ih =>
      rw [edited_concat]
      exact ih.toggle square

/-- Squares that leave each other in peace all take their queens. -/
theorem squares_edited (hsize : size < UInt64.size / 2) (h : Peaceful size squares) :
    (edited size squares).position.squares = squares := by
  induction squares using List.reverseRecOn with
  | nil => rfl
  | append_singleton squares square ih =>
      obtain ⟨hpeace, hsquare, hnone⟩ := Peaceful.concat_iff.mp h
      have hempty := (Position.occupancy_ofSquares_eq_empty_iff hsize hpeace.on_board hsquare).mpr
        hnone
      rw [edited_concat, ((reachable_edited size squares).sound hsize).toggle_of_on_board hsquare,
        ih hpeace, hempty]
      exact Position.squares_ofSquares _ _

/-- Four queens solve the board of four rows. The last one can be lifted off again, the square
above it is attacked, and a tenth row does not exist. -/
theorem edited_keeps_rules :
    let session := edited 4 [⟨0, 1⟩, ⟨1, 3⟩, ⟨2, 0⟩, ⟨3, 2⟩]
    Fills 4 session.position.squares ∧ (session.toggle 3 2).1 = .queen ∧
      (session.toggle 2 2).1 = .blocked ∧ (session.toggle 9 0).1 = .blocked := by
  intro session
  have hreachable : Reachable 4 session := reachable_edited 4 _
  have hsquares : session.position.squares = [⟨0, 1⟩, ⟨1, 3⟩, ⟨2, 0⟩, ⟨3, 2⟩] :=
    squares_edited (by decide) ⟨by decide, by decide⟩
  obtain ⟨⟨_, _, _, _, hcount, _⟩, htoggle, hsolved⟩ :=
    reachable_keeps_rules (show 3 * 4 < UInt64.size / 2 by decide) hreachable
  have hsize : session.size = 4 := (hreachable.sound (by decide)).cells.size_eq
  rw [hsquares] at hcount htoggle
  have hfull : session.isSolved = true := by
    rw [isSolved, hcount, hsize]
    rfl
  exact ⟨hsolved.mp hfull, (htoggle ⟨3, 2⟩).1.mpr (by decide),
    (htoggle ⟨2, 2⟩).2.1.mpr (by decide), (htoggle ⟨9, 0⟩).2.1.mpr (by decide)⟩

end Session.Editing

end QueensPuzzle
