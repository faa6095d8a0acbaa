import QueensPuzzle.Proofs.Placement.Walks
import QueensPuzzle.Proofs.Session.Editing

/-! # What a picture tells

The text of a diagram is ruled: as many lines as there are rows, in each of them a mark for every
column, with blanks between them. So two texts of one size are the same only if all their marks are,
and as a queen on a cell counts before the queens that attack it, the text tells where the queens
are, though neither in which order nor how often they were given.
-/

namespace QueensPuzzle

variable {size : Nat} {squares others : List Square}

theorem Shade.of_eq_black_iff (row column : Nat) :
    Shade.of row column = .black ↔ (row + column) % 2 = 1 := by
  have hsum : (column + row % 2) % 2 = (row + column) % 2 := by omega
  rw [Shade.of, hsum]
  split <;> simp_all

namespace Diagram

/-! ## Ruled texts -/

/-- The characters of a text of as many lines as there are marks in each line, with blanks between
the marks and an end behind every line. -/
def ruled (size : Nat) (mark : Nat → Nat → Char) : List Char :=
  (List.range size).flatMap fun row => ((List.range size).map (mark row)).intersperse ' ' ++ ['\n']

variable {mark other : Nat → Nat → Char}

theorem mem_of_mem_intersperse {items : List Char} {c separator : Char}
    (h : c ∈ items.intersperse separator) : c ∈ items ∨ c = separator := by
  induction items using List.intersperse.induct with
  | case1 => exact .inl h
  | case2 => exact .inl h
  | case3 first more hmore ih =>
      obtain ⟨second, rest, rfl⟩ := List.exists_cons_of_ne_nil hmore
      rw [List.intersperse_cons_cons, List.mem_cons, List.mem_cons] at h
      rcases h with rfl | rfl | hrest
      · exact .inl List.mem_cons_self
      · exact .inr rfl
      · exact (ih hrest).imp_left (List.mem_cons_of_mem first)

theorem mem_ruled {c : Char} (h : c ∈ ruled size mark) :
    c = ' ' ∨ c = '\n' ∨ ∃ row < size, ∃ column < size, mark row column = c := by
  obtain ⟨row, hrow, hline⟩ := List.mem_flatMap.mp h
  rcases List.mem_append.mp hline with hmarks | hend
  · rcases mem_of_mem_intersperse hmarks with hmark | hblank
    · obtain ⟨column, hcolumn, rfl⟩ := List.mem_map.mp hmark
      exact .inr (.inr ⟨row, List.mem_range.mp hrow, column, List.mem_range.mp hcolumn, rfl⟩)
    · exact .inl hblank
  · exact .inr (.inl (List.mem_singleton.mp hend))

/-- Texts of lines are read line by line where the lines are of one length. -/
theorem eq_of_flatMap_range_eq {count : Nat} {line line' : Nat → List Char}
    (hlength : ∀ row, (line row).length = (line' row).length)
    (h : (List.range count).flatMap line = (List.range count).flatMap line') :
    ∀ row < count, line row = line' row := by
  induction count with
  | zero => exact fun _ hrow => absurd hrow (Nat.not_lt_zero _)
  | succ count ih =>
      simp only [List.range_succ, List.flatMap_append, List.flatMap_singleton] at h
      obtain ⟨hbefore, hlast⟩ := List.append_inj' h (hlength count)
      intro row hrow
      rcases Nat.lt_succ_iff_lt_or_eq.mp hrow with hlt | rfl
      · exact ih hbefore row hlt
      · exact hlast

theorem ruled_eq_iff :
    ruled size mark = ruled size other ↔
      ∀ row < size, ∀ column < size, mark row column = other row column := by
  constructor
  · intro h row hrow column hcolumn
    have hline := eq_of_flatMap_range_eq (by simp) h row hrow
    have hmarks := List.append_cancel_right hline
    -- Every second character of a line is a mark.
    have hmark := congrArg (·[2 * column]?) hmarks
    simpa [List.getElem?_intersperse_two_mul, hcolumn] using hmark
  · intro h
    apply List.flatMap_congr
    intro row hrow
    have hmarks : (List.range size).map (mark row) = (List.range size).map (other row) := by
      apply List.map_congr_left
      intro column hcolumn
      exact h row (List.mem_range.mp hrow) column (List.mem_range.mp hcolumn)
    rw [hmarks]

/-! ## The text of a diagram -/

/-- The character that a mark is. -/
def markOf : Occupancy → Char
  | .empty => 'x'
  | .queen => 'Q'
  | .blocked => '.'

theorem toList_mark (occupancy : Occupancy) : occupancy.mark.toList = [markOf occupancy] := by
  cases occupancy <;> rfl

theorem markOf_inj {a b : Occupancy} : markOf a = markOf b ↔ a = b := by
  cases a <;> cases b <;> decide

theorem intercalate_singletons (items : List Char) (separator : Char) :
    [separator].intercalate (items.map ([·])) = items.intersperse separator := by
  induction items using List.intersperse.induct with
  | case1 => rfl
  | case2 => rfl
  | case3 first more hmore ih =>
      obtain ⟨second, rest, rfl⟩ := List.exists_cons_of_ne_nil hmore
      rw [List.intersperse_cons_cons, ← ih]
      rfl

theorem Row.toList_text (row : Row) :
    row.text.toList = (row.entries.map (markOf ·.occupancy)).intersperse ' ' ++ ['\n'] := by
  rw [Row.text, String.toList_append, String.toList_intercalate, ← intercalate_singletons]
  simp only [List.map_map]
  congr 3
  funext entry
  exact toList_mark entry.occupancy

end Diagram

open Diagram

namespace Position

theorem diagram_eq (position : Position) (size : Nat) :
    position.diagram size =
      ⟨(List.range size).map fun row => ⟨row, (List.range size).map fun column =>
        ⟨.of row column size, .of row column, position.occupancy (.of row column size)⟩⟩⟩ :=
  ((CellCache.serves_new size).describe_spec position).1

theorem length_rows_diagram (position : Position) (size : Nat) :
    (position.diagram size).rows.length = size := by simp [diagram_eq]

theorem getElem?_rows_diagram (position : Position) {row : Nat} (hrow : row < size) :
    (position.diagram size).rows[row]? =
      some ⟨row, (List.range size).map fun column =>
        ⟨.of row column size, .of row column, position.occupancy (.of row column size)⟩⟩ := by
  simp [diagram_eq, hrow]

theorem toList_text_diagram (position : Position) (size : Nat) :
    (position.diagram size).text.toList =
      ruled size fun row column => markOf (position.occupancy (.of row column size)) := by
  rw [diagram_eq, Diagram.text, String.toList_join, List.flatMap_map, List.flatMap_map, ruled]
  apply List.flatMap_congr
  intro row _
  rw [Row.toList_text, List.map_map]
  rfl

/-- The mark of a square tells whether it has a queen, and else whether one attacks it. -/
theorem markOf_ofSquares (hsize : size < UInt64.size / 2)
    (hsquares : ∀ queen ∈ squares, queen.row < size ∧ queen.column < size) (square : Square)
    (hsquare : square.row < size ∧ square.column < size) :
    let mark := markOf ((ofSquares squares size).occupancy (.of square.row square.column size))
    (mark = 'Q' ↔ square ∈ squares) ∧
      (mark = '.' ↔ square ∉ squares ∧ ∃ queen ∈ squares, queen.attacks square = true) ∧
      (mark = 'x' ↔ ∀ queen ∈ squares, queen.attacks square = false) := by
  refine ⟨?_, ?_, ?_⟩
  · rw [← occupancy_ofSquares_eq_queen_iff]
    exact markOf_inj (b := .queen)
  · rw [← occupancy_ofSquares_eq_blocked_iff hsize hsquares hsquare]
    exact markOf_inj (b := .blocked)
  · rw [← occupancy_ofSquares_eq_empty_iff hsize hsquares hsquare]
    exact markOf_inj (b := .empty)

/-- The texts of two positions on one board tell the same if the same squares have queens. -/
theorem text_diagram_eq_iff
    (hsquares : ∀ queen ∈ squares, queen.row < size ∧ queen.column < size)
    (hothers : ∀ queen ∈ others, queen.row < size ∧ queen.column < size) :
    ((ofSquares others size).diagram size).text = ((ofSquares squares size).diagram size).text ↔
      ∀ square, square ∈ others ↔ square ∈ squares := by
  rw [← String.toList_inj, toList_text_diagram, toList_text_diagram, ruled_eq_iff]
  constructor
  · intro h square
    have hmem : square.row < size ∧ square.column < size →
        (square ∈ others ↔ square ∈ squares) := by
      rintro ⟨hrow, hcolumn⟩
      have hshown := markOf_inj.mp (h square.row hrow square.column hcolumn)
      have hqueen : (ofSquares others size).occupancy (.of square.row square.column size) = .queen ↔
          square ∈ others := occupancy_ofSquares_eq_queen_iff
      rw [← hqueen, hshown, occupancy_ofSquares_eq_queen_iff]
    constructor
    · intro hother
      exact (hmem (hothers square hother)).mp hother
    · intro hsquare
      exact (hmem (hsquares square hsquare)).mpr hsquare
  · intro h row _ column _
    congr 1
    apply occupancy_congr
    simp only [ofSquares, List.mem_map, h, implies_true]

end Position

/-! ## Solutions -/

namespace Fills

theorem existsUnique_column (h : Fills size squares)
    (hsquares : ∀ queen ∈ squares, queen.row < size ∧ queen.column < size) {row : Nat}
    (hrow : row < size) : ∃! column, column < size ∧ (⟨row, column⟩ : Square) ∈ squares := by
  obtain ⟨queen, ⟨hqueen, rfl⟩, honly⟩ := h.rows row hrow
  refine ⟨queen.column, ⟨(hsquares queen hqueen).2, hqueen⟩, ?_⟩
  rintro column ⟨_, hmem⟩
  exact congrArg Square.column (honly _ ⟨hmem, rfl⟩)

theorem existsUnique_row (h : Fills size squares)
    (hsquares : ∀ queen ∈ squares, queen.row < size ∧ queen.column < size) {column : Nat}
    (hcolumn : column < size) : ∃! row, row < size ∧ (⟨row, column⟩ : Square) ∈ squares := by
  obtain ⟨queen, ⟨hqueen, rfl⟩, honly⟩ := h.columns column hcolumn
  refine ⟨queen.row, ⟨(hsquares queen hqueen).1, hqueen⟩, ?_⟩
  rintro row ⟨_, hmem⟩
  exact congrArg Square.row (honly _ ⟨hmem, rfl⟩)

/-- Every square is attacked by the queen in its row. -/
theorem exists_attacks (h : Fills size squares) {square : Square} (hrow : square.row < size) :
    ∃ queen ∈ squares, queen.attacks square = true := by
  obtain ⟨queen, ⟨hqueen, hequal⟩, _⟩ := h.rows square.row hrow
  exact ⟨queen, hqueen, Square.attacks_of_row_eq hequal⟩

theorem not_mem_text (h : Fills size squares) (hsize : size < UInt64.size / 2)
    (hsquares : ∀ queen ∈ squares, queen.row < size ∧ queen.column < size) :
    'x' ∉ ((Position.ofSquares squares size).diagram size).text.toList := by
  intro hopen
  rw [Position.toList_text_diagram] at hopen
  rcases mem_ruled hopen with hblank | hend | ⟨row, hrow, column, hcolumn, hmark⟩
  · cases hblank
  · cases hend
  · obtain ⟨_, _, hempty⟩ :=
      Position.markOf_ofSquares hsize hsquares ⟨row, column⟩ ⟨hrow, hcolumn⟩
    obtain ⟨queen, hqueen, hattacks⟩ : ∃ queen ∈ squares, queen.attacks ⟨row, column⟩ = true :=
      h.exists_attacks hrow
    rw [hempty.mp hmark queen hqueen] at hattacks
    cases hattacks

end Fills

/-- A board of a size is drawn, from any cache that such boards have, with queens on squares of the
board. The picture has a line of cells for every row, each with its square, its shade and what is on
it. The text has a mark for every cell, by which the squares with a queen, those that are attacked
and the others are told apart. Another picture of this size has the same text exactly if its queens
are on the same squares. If the queens are those that an engine found, there is one in every line
and in every column of the text, and no square is left open. Three times the size has to be a signed
word, so that the indices of the cells are. -/
theorem picture_determines_queens (hsize : 3 * size < UInt64.size / 2)
    (hsquares : ∀ queen ∈ squares, queen.row < size ∧ queen.column < size) {cache : CellCache}
    (hcache : cache.Used size) :
    let diagram := ((Position.ofSquares squares size).describe cache).1
    diagram.rows.length = size ∧
    (∀ row < size, ∃ line, diagram.rows[row]? = some line ∧ line.index = row ∧
      line.entries.length = size ∧
      ∀ column < size, ∃ entry, line.entries[column]? = some entry ∧
        entry.cell = .of row column size ∧ (entry.shade = .black ↔ (row + column) % 2 = 1) ∧
        (entry.occupancy = .queen ↔ ⟨row, column⟩ ∈ squares)) ∧
    (∃ mark, diagram.text.toList = Diagram.ruled size mark ∧
      (∀ row < size, ∀ column < size,
        let square : Square := ⟨row, column⟩
        (mark row column = 'Q' ↔ square ∈ squares) ∧
        (mark row column = '.' ↔
          square ∉ squares ∧ ∃ queen ∈ squares, queen.attacks square = true) ∧
        (mark row column = 'x' ↔ ∀ queen ∈ squares, queen.attacks square = false)) ∧
      ∀ engine : Engine, (engine.solve size).queens = some squares →
        (∀ row < size, ∃! column, column < size ∧ mark row column = 'Q') ∧
        (∀ column < size, ∃! row, row < size ∧ mark row column = 'Q') ∧
        'x' ∉ diagram.text.toList) ∧
    ∀ others, (∀ queen ∈ others, queen.row < size ∧ queen.column < size) →
      ∀ another : CellCache, another.Used size →
        (((Position.ofSquares others size).describe another).1.text = diagram.text ↔
          ∀ square, square ∈ others ↔ square ∈ squares) := by
  have hword : size < UInt64.size / 2 := by omega
  intro diagram
  have hdiagram : diagram = (Position.ofSquares squares size).diagram size :=
    hcache.serves.describe_fst _
  have hmarks (row : Nat) (hrow : row < size) (column : Nat) (hcolumn : column < size) :=
    Position.markOf_ofSquares hword hsquares ⟨row, column⟩ ⟨hrow, hcolumn⟩
  refine ⟨?_, ?_, ⟨_, ?_, hmarks, ?_⟩, ?_⟩
  · rw [hdiagram, Position.length_rows_diagram]
  · intro row hrow
    rw [hdiagram, Position.getElem?_rows_diagram _ hrow]
    refine ⟨_, rfl, rfl, by simp, ?_⟩
    intro column hcolumn
    have hqueen := (hmarks row hrow column hcolumn).1
    exact ⟨_, by simp [hcolumn]; rfl, rfl, Shade.of_eq_black_iff row column,
      markOf_inj.symm.trans hqueen⟩
  · rw [hdiagram, Position.toList_text_diagram]
  · intro engine hsolve
    obtain ⟨hlength, hpeace⟩ := Placement.peaceful_of_solve hsolve
    have hfills := (hpeace.length_eq_iff_fills (Nat.le_of_lt hword)).mp hlength
    refine ⟨?_, ?_, ?_⟩
    · intro row hrow
      refine (existsUnique_congr ?_).mpr (hfills.existsUnique_column hsquares hrow)
      intro column
      exact and_congr_right fun hcolumn => (hmarks row hrow column hcolumn).1
    · intro column hcolumn
      refine (existsUnique_congr ?_).mpr (hfills.existsUnique_row hsquares hcolumn)
      intro row
      exact and_congr_right fun hrow => (hmarks row hrow column hcolumn).1
    · rw [hdiagram]
      exact hfills.not_mem_text hword hsquares
  · intro others hothers another hanother
    rw [hdiagram, hanother.serves.describe_fst]
    exact Position.text_diagram_eq_iff hsquares hothers

/-- A queen that is given twice is drawn once. One on another square makes another text, though on a
board of two rows it leaves no square open either. -/
theorem two_rows_drawn :
    let text (squares : List Square) := ((Position.ofSquares squares 2).diagram 2).text
    text [⟨0, 1⟩, ⟨0, 1⟩] = text [⟨0, 1⟩] ∧ text [⟨1, 0⟩] ≠ text [⟨0, 1⟩] := by
  intro text
  have hcache : (CellCache.get 5 0 (.new 2)).2.Used 2 := .get .new 5 0
  obtain ⟨_, _, _, htexts⟩ :=
    picture_determines_queens (show 3 * 2 < UInt64.size / 2 by decide)
      (show ∀ queen ∈ [(⟨0, 1⟩ : Square)], queen.row < 2 ∧ queen.column < 2 by decide) hcache
  rw [hcache.serves.describe_fst] at htexts
  constructor
  · refine (htexts _ (by decide) _ .new).mpr ?_
    intro square
    simp
  · intro hsame
    have hsquares := (htexts _ (by decide) _ .new).mp hsame
    exact absurd ((hsquares ⟨1, 0⟩).mp (by decide)) (by decide)

end QueensPuzzle
