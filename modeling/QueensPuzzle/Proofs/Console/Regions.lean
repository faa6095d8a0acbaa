import QueensPuzzle.Proofs.Board.Picture
import QueensPuzzle.Proofs.Console.Messages
import QueensPuzzle.Proofs.Placement.Solvable

/-! # What is drawn over

A frame is drawn region by region: the board, the panel to the right of it and the keys below. The
keys begin a row under the board, however many rows the panel has, and reach further to the right
than a small board. The board is never drawn over, but on up to four rows the keys cover what the
panel has on the same lines: the message on two to four rows, the status on one or two and the
steps on one.
-/

namespace QueensPuzzle

theorem length_toString_le {number digits : Nat} (hdigits : 0 < digits)
    (h : number < 10 ^ digits) : (toString number).length ≤ digits := by
  rw [Nat.toString_eq_repr, Nat.repr, String.length_ofList]
  exact (Nat.length_toDigits_le_iff (by decide) hdigits).mpr h

theorem BoardSize.length_text_le (size : BoardSize) : size.text.length ≤ 2 := by
  have hmax : size.rows ≤ 24 := size.rows_le_max
  exact length_toString_le (by decide) (by omega)

namespace Console

/-- The place of a character on the screen, counted from the top left corner. -/
structure Place where
  column : Nat
  row : Nat
  deriving DecidableEq, Repr

/-- The places of so many characters on a screen of some width. What does not fit in the row goes on
at the beginning of the next one. -/
def span (width column row count : Nat) : List Place :=
  (List.range count).map fun i => ⟨(column + i) % width, row + (column + i) / width⟩

namespace Output

def moves : Output → Bool
  | .moveTo _ _ => true
  | _ => false

/-- How many characters are printed. -/
def printedLength : List Output → Nat
  | [] => 0
  | .print text :: rest => text.length + printedLength rest
  | _ :: rest => printedLength rest

/-- The places on which something is printed, from a column and a row on. -/
def printed (width : Nat) : List Output → Nat → Nat → List Place
  | [], _, _ => []
  | .moveTo x y :: rest, _, _ => printed width rest x y
  | .print text :: rest, column, row =>
      span width column row text.length ++ printed width rest (column + text.length) row
  | _ :: rest, column, row => printed width rest column row

end Output

open Output

variable {width column row count : Nat} {place : Place}

theorem mem_span :
    place ∈ span width column row count ↔
      ∃ i < count, place = ⟨(column + i) % width, row + (column + i) / width⟩ := by
  simp [span, eq_comm]

/-- A text that fits in its row is nowhere else. -/
theorem mem_span_of_fits (h : column + count ≤ width) :
    place ∈ span width column row count ↔
      place.row = row ∧ column ≤ place.column ∧ place.column < column + count := by
  have hplace : ∀ i < count, (column + i) % width = column + i ∧ (column + i) / width = 0 :=
    fun i hi => ⟨Nat.mod_eq_of_lt (by omega), Nat.div_eq_of_lt (by omega)⟩
  rw [mem_span]
  constructor
  · rintro ⟨i, hi, rfl⟩
    obtain ⟨hcolumn, hrow⟩ := hplace i hi
    simp only [hcolumn, hrow]
    omega
  · rintro ⟨hrow, hle, hlt⟩
    obtain ⟨hcolumn, hzero⟩ := hplace (place.column - column) (by omega)
    refine ⟨place.column - column, by omega, ?_⟩
    rw [hcolumn, hzero]
    cases place
    simp only at hrow hle ⊢
    rw [Place.mk.injEq]
    omega

/-- A text that takes less than two rows is in its row or in the next. -/
theorem row_of_mem_span (h : column + count ≤ 2 * width)
    (hplace : place ∈ span width column row count) : row ≤ place.row ∧ place.row ≤ row + 1 := by
  obtain ⟨i, hi, rfl⟩ := mem_span.mp hplace
  have hless : (column + i) / width < 2 := Nat.div_lt_of_lt_mul (by omega)
  exact ⟨Nat.le_add_right _ _, Nat.add_le_add_left (Nat.le_of_lt_succ hless) _⟩

theorem span_add (width column row first second : Nat) :
    span width column row (first + second) =
      span width column row first ++ span width (column + first) row second := by
  simp [span, List.range_add, Function.comp_def, Nat.add_assoc]

theorem printedLength_append (first second : List Output) :
    printedLength (first ++ second) = printedLength first + printedLength second := by
  induction first with
  | nil => simp [printedLength]
  | cons output first ih =>
      cases output <;> simp [printedLength, ih, Nat.add_assoc]

theorem printed_append {pieces : List Output} (hstill : ∀ output ∈ pieces, output.moves = false)
    (width : Nat) (rest : List Output) (column row : Nat) :
    printed width (pieces ++ rest) column row =
      span width column row (printedLength pieces) ++
        printed width rest (column + printedLength pieces) row := by
  induction pieces generalizing column with
  | nil => simp [printedLength, span]
  | cons output pieces ih =>
      rw [List.forall_mem_cons] at hstill
      cases output with
      | moveTo x y => cases hstill.1
      | print text =>
          simp only [List.cons_append, printed, printedLength, ih hstill.2, span_add,
            List.append_assoc, Nat.add_assoc]
      | _ => exact ih hstill.2 column

/-- What moves to a place of its own is printed there, wherever the outputs before it have ended. -/
theorem printed_append_of_forall {second : List Output} {places : List Place}
    (h : ∀ column row, printed width second column row = places) (first : List Output)
    (column row : Nat) :
    printed width (first ++ second) column row = printed width first column row ++ places := by
  induction first generalizing column row with
  | nil => exact h column row
  | cons output first ih => cases output <;> simp [printed, ih]

theorem column_lt_of_mem_printed (hwidth : 0 < width) {outputs : List Output}
    (hplace : place ∈ printed width outputs column row) : place.column < width := by
  induction outputs generalizing column row with
  | nil => cases hplace
  | cons output outputs ih =>
      cases output with
      | print text =>
          rw [printed, List.mem_append] at hplace
          rcases hplace with hfirst | hrest
          · obtain ⟨_, _, rfl⟩ := mem_span.mp hfirst
            exact Nat.mod_lt _ hwidth
          · exact ih hrest
      | _ => exact ih hplace

/-! ## Lines -/

/-- Outputs that print in one go, from a place on. -/
structure Line where
  x : Nat
  y : Nat
  pieces : List Output
  still : ∀ output ∈ pieces, output.moves = false

namespace Line

def outputs (line : Line) : List Output := .moveTo line.x line.y :: line.pieces

def places (width : Nat) (line : Line) : List Place :=
  span width line.x line.y (printedLength line.pieces)

end Line

theorem printed_lines (width : Nat) (lines : List Line) (column row : Nat) :
    printed width (lines.flatMap Line.outputs) column row = lines.flatMap (Line.places width) := by
  induction lines generalizing column row with
  | nil => rfl
  | cons line lines ih =>
      rw [List.flatMap_cons, List.flatMap_cons, Line.outputs, List.cons_append, printed,
        printed_append line.still, ih]
      rfl

namespace Game

variable {game : Game} {x y : Nat}

/-! ## The board -/

theorem moves_borderPiece (game : Game) (text : String) :
    ∀ output ∈ game.borderPiece text, output.moves = false := by
  simp [borderPiece, moves]

theorem moves_squareOutputs (game : Game) (square : Square) (occupancy : Occupancy) :
    ∀ output ∈ game.squareOutputs square occupancy, output.moves = false := by
  simp [squareOutputs, moves]

def borderLine (game : Game) (x y : Nat) (text : String) : Line :=
  ⟨x, y, game.borderPiece text, game.moves_borderPiece text⟩

def rowLine (game : Game) (x y : Nat) (row : Diagram.Row) : Line where
  x := x
  y := y + 1 + row.index
  pieces := game.borderPiece "│" ++
    row.entries.flatMap (fun entry => game.squareOutputs entry.cell.square entry.occupancy) ++
    game.borderPiece "│"
  still := by
    simp only [List.mem_append, List.mem_flatMap]
    rintro output ((hborder | ⟨entry, _, hsquare⟩) | hborder)
    · exact game.moves_borderPiece _ output hborder
    · exact game.moves_squareOutputs _ _ output hsquare
    · exact game.moves_borderPiece _ output hborder

def boardLines (game : Game) (diagram : Diagram) (x y : Nat) : List Line :=
  game.borderLine x y ("┌" ++ game.horizontalLine ++ "┐") ::
    diagram.rows.map (game.rowLine x y) ++
    [game.borderLine x (y + 1 + game.rows) ("└" ++ game.horizontalLine ++ "┘")]

theorem boardOutputs_eq (game : Game) (diagram : Diagram) (x y : Nat) :
    game.boardOutputs diagram x y = (game.boardLines diagram x y).flatMap Line.outputs := by
  simp only [boardLines, List.flatMap_append, List.flatMap_cons, List.flatMap_map, List.flatMap_nil,
    List.append_nil]
  rfl

theorem length_horizontalLine (game : Game) :
    game.horizontalLine.length = game.rows * squareWidth := by
  simp [horizontalLine]

theorem printedLength_squareOutputs (game : Game) (square : Square) (occupancy : Occupancy) :
    printedLength (game.squareOutputs square occupancy) = squareWidth := by
  cases occupancy <;> rfl

theorem printedLength_rowLine (game : Game) (x y : Nat) (row : Diagram.Row) :
    printedLength (game.rowLine x y row).pieces = row.entries.length * squareWidth + 2 := by
  have hentries : ∀ entries : List Diagram.Entry, printedLength (entries.flatMap fun entry =>
      game.squareOutputs entry.cell.square entry.occupancy) = entries.length * squareWidth := by
    intro entries
    induction entries with
    | nil => rfl
    | cons entry entries ih =>
        rw [List.flatMap_cons, printedLength_append, printedLength_squareOutputs, ih,
          List.length_cons, Nat.succ_mul, Nat.add_comm]
  have hborder : printedLength (game.borderPiece "│") = 1 := rfl
  rw [rowLine, printedLength_append, printedLength_append, hentries, hborder]
  omega

theorem of_mem_boardLines (h : game.cells.Serves game.rows) {line : Line}
    (hline : line ∈ game.boardLines game.diagram.1 x y) :
    line.x = x ∧ y ≤ line.y ∧ line.y ≤ y + game.rows + 1 ∧
      printedLength line.pieces = game.rows * squareWidth + 2 := by
  have hdiagram : game.diagram.1 = _ := (h.describe_spec game.position).1
  have hends : ∀ first last : String, first.length = 1 → last.length = 1 →
      (first ++ game.horizontalLine ++ last).length = game.rows * squareWidth + 2 := by
    intro first last hfirst hlast
    rw [String.length_append, String.length_append, length_horizontalLine, hfirst, hlast]
    omega
  simp only [boardLines, hdiagram, List.mem_append, List.mem_cons, List.mem_map,
    List.mem_range] at hline
  rcases hline with (rfl | ⟨_, ⟨row, hrow, rfl⟩, rfl⟩) | hlast
  · refine ⟨rfl, Nat.le_refl y, by simp only [borderLine]; omega, ?_⟩
    exact hends _ _ rfl rfl
  · rw [printedLength_rowLine, List.length_map, List.length_range]
    refine ⟨rfl, ?_, ?_, rfl⟩
    · change y ≤ y + 1 + row
      omega
    · change y + 1 + row ≤ y + game.rows + 1
      omega
  · simp only [List.not_mem_nil, or_false] at hlast
    rw [hlast]
    refine ⟨rfl, by simp only [borderLine]; omega, by simp only [borderLine]; omega, ?_⟩
    exact hends _ _ rfl rfl

/-- The board stays between its borders. -/
theorem of_mem_printed_board (h : game.cells.Serves game.rows)
    (hwidth : x + (game.rows * squareWidth + 2) ≤ width)
    (hplace : place ∈ printed width (game.boardOutputs game.diagram.1 x y) 0 0) :
    (x ≤ place.column ∧ place.column < x + (game.rows * squareWidth + 2)) ∧
      y ≤ place.row ∧ place.row ≤ y + game.rows + 1 := by
  rw [boardOutputs_eq, printed_lines, List.mem_flatMap] at hplace
  obtain ⟨line, hline, hplace⟩ := hplace
  obtain ⟨hx, hfirst, hlast, hlength⟩ := of_mem_boardLines h hline
  rw [Line.places, hlength, hx, mem_span_of_fits hwidth] at hplace
  omega

/-! ## The panel -/

/-- The texts of the panel with their lines, counted from the top of the board. -/
def panelTexts (game : Game) : List (Nat × String) :=
  game.panelLines.zipIdx.map (fun ((text, _), line) => (line, text)) ++
    (game.message.map fun message => (game.panelLines.length + 1, message.text)).toList

def panelSegments (game : Game) (x y : Nat) : List Line :=
  game.panelLines.zipIdx.map (fun ((text, color), line) =>
    ⟨x, y + line, [.background game.colors.background, .foreground color, .print text],
      by simp [moves]⟩) ++
    (game.message.map fun message =>
      ⟨x, y + game.panelLines.length + 1, [.foreground game.colors.key, .print message.text],
        by simp [moves]⟩).toList

theorem panelOutputs_eq (game : Game) (x y : Nat) :
    game.panelOutputs x y = (game.panelSegments x y).flatMap Line.outputs := by
  unfold panelOutputs panelSegments
  rw [List.flatMap_append, List.flatMap_map]
  congr 1
  cases game.message <;> rfl

theorem printed_panel (game : Game) (width x y column row : Nat) :
    printed width (game.panelOutputs x y) column row =
      game.panelTexts.flatMap fun (line, text) => span width x (y + line) text.length := by
  rw [panelOutputs_eq, printed_lines, panelSegments, panelTexts, List.flatMap_append,
    List.flatMap_append, List.flatMap_map, List.flatMap_map]
  congr 1
  cases game.message <;> rfl

theorem panelTexts_eq (game : Game) :
    game.panelTexts =
      [(0, s!"N-QUEENS {game.rows}x{game.rows}"), (1, ""),
        (2, s!"Engine:  {game.config.engine.name}"),
        (3, s!"Queens:  {game.position.queenCount}/{game.rows}"),
        (4, s!"Steps:   {game.steps}"), (5, s!"Status:  {game.statusLine.1}")] ++
      (game.message.map fun message => (7, message.text)).toList := rfl

/-! ### Lengths -/

theorem length_name_le (engine : Engine) : (toString engine.name).length ≤ 12 := by
  cases engine <;> decide

theorem length_statusLine_le (game : Game) : (toString game.statusLine.1).length ≤ 12 := by
  unfold statusLine
  cases game.status <;> dsimp only <;> decide

theorem expansions_le_of_not_solvable {rows : Nat} (h : ¬Solvable rows) :
    (Placement.empty rows).expansions < 10 ^ 2 := by
  rw [solvable_iff, not_not] at h
  rcases h with rfl | rfl
  · have : (Placement.empty 2).expansions = 3 := by cbv
    omega
  · have : (Placement.empty 3).expansions = 6 := by cbv
    omega

theorem length_message_le (hcounted : game.Counted) (hsteps : game.steps < 10 ^ 12)
    {message : Message} (hmessage : game.message = some message) :
    message.text.length ≤ panelWidth := by
  have hcounts := hcounted message hmessage
  cases message with
  | squareAttacked | solvedByHand | noSolution => decide
  | failed fault => exact False.elim hcounts
  | engineChosen engine =>
      have hname := length_name_le engine
      unfold Message.text
      simp only [String.length_append]
      change 8 + _ ≤ 28
      omega
  | solvedWith engine =>
      have hname := length_name_le engine
      unfold Message.text
      simp only [String.length_append]
      change 12 + _ ≤ 28
      omega
  | solvedIn count =>
      have hcount : count < 10 ^ 12 := hcounts ▸ hsteps
      have hdigits := length_toString_le (by decide) hcount
      unfold Message.text
      simp only [String.length_append]
      change 10 + _ + 6 ≤ 28
      omega
  | noSolutionAfter count =>
      have hcount : count < 10 ^ 2 := by
        rw [hcounts.1]
        exact expansions_le_of_not_solvable hcounts.2
      have hdigits := length_toString_le (by decide) hcount
      unfold Message.text
      simp only [String.length_append]
      change 18 + _ + 6 ≤ 28
      omega
  | boardResized size =>
      have hdigits : (toString size.text).length ≤ 2 := size.length_text_le
      unfold Message.text
      simp only [String.length_append]
      change 7 + _ + 1 + _ ≤ 28
      omega

/-- The panel is as wide as its texts may be. -/
theorem length_le_panelWidth (h : Reachable game) (hsteps : game.steps < 10 ^ 12) {line : Nat}
    {text : String} (hmem : (line, text) ∈ game.panelTexts) : text.length ≤ panelWidth := by
  have hrows : (toString game.rows).length ≤ 2 := game.config.boardSize.length_text_le
  simp only [panelTexts_eq, List.mem_append, List.mem_cons, List.not_mem_nil, or_false,
    Prod.mk.injEq, Option.mem_toList, Option.map_eq_some_iff] at hmem
  rcases hmem with (⟨_, rfl⟩ | ⟨_, rfl⟩ | ⟨_, rfl⟩ | ⟨_, rfl⟩ | ⟨_, rfl⟩ | ⟨_, rfl⟩) |
    ⟨message, hmessage, _, rfl⟩
  · simp only [String.length_append]
    change 9 + _ + 1 + _ ≤ 28
    omega
  · decide
  · have hname := length_name_le game.config.engine
    simp only [String.length_append]
    change 9 + _ ≤ 28
    omega
  · have hqueens : (toString game.position.queenCount).length ≤ 2 := by
      obtain ⟨squares, hposition, hpeace⟩ := h.sound.peaceful
      have hle := hpeace.length_le
      have hmax : game.rows ≤ 24 := game.config.boardSize.rows_le_max
      rw [hposition, Position.queenCount_ofSquares]
      exact length_toString_le (by decide) (by omega)
    simp only [String.length_append]
    change 9 + _ + 1 + _ ≤ 28
    omega
  · have hdigits := length_toString_le (by decide) hsteps
    simp only [String.length_append]
    change 9 + _ ≤ 28
    omega
  · have hstatus := game.length_statusLine_le
    simp only [String.length_append]
    change 9 + _ ≤ 28
    omega
  · exact length_message_le h.counted hsteps hmessage

theorem length_text_pos (message : Message) : 0 < message.text.length := by
  have happend : ∀ label text : String, 0 < label.length → 0 < (label ++ text).length := by
    intro label text hlabel
    rw [String.length_append]
    omega
  cases message with
  | squareAttacked | solvedByHand | noSolution => decide
  | engineChosen | solvedWith | failed => exact happend _ _ (by decide)
  | solvedIn | noSolutionAfter => exact happend _ _ (happend _ _ (by decide))
  | boardResized => exact happend _ _ (happend _ _ (happend _ _ (by decide)))

/-! ## The keys -/

def keyLines (game : Game) (x y : Nat) : List Line :=
  controls.zipIdx.map fun (keys, line) =>
    { x := x
      y := y + line
      pieces := .background game.colors.background :: keys.flatMap fun (key, label) =>
        [.foreground game.colors.key, .print key,
          .foreground game.colors.info, .print (" " ++ label ++ "   ")]
      still := by
        simp only [List.mem_cons, List.mem_flatMap, List.not_mem_nil, or_false]
        rintro output (rfl | ⟨_, _, rfl | rfl | rfl | rfl⟩) <;> rfl }

theorem printed_keys (game : Game) (width x y column row : Nat) :
    printed width (game.controlsOutputs x y) column row =
      span width x y 47 ++ span width x (y + 1) 45 ++ span width x (y + 2) 19 := by
  have hlines : game.controlsOutputs x y = (game.keyLines x y).flatMap Line.outputs := by
    rw [keyLines, List.flatMap_map]
    rfl
  rw [hlines, printed_lines]
  simp only [keyLines, controls, List.zipIdx_cons, List.zipIdx_nil, List.map_cons, List.map_nil,
    List.flatMap_cons, List.flatMap_nil, List.append_nil, List.append_assoc]
  rfl

/-- The keys stay in three rows, even where the first two lines of them are broken. -/
theorem of_mem_printed_keys (hwidth : x + 36 ≤ width)
    (hplace : place ∈ printed width (game.controlsOutputs x y) 0 0) :
    y ≤ place.row ∧ place.row ≤ y + 2 := by
  rw [printed_keys, List.mem_append, List.mem_append] at hplace
  rcases hplace with (hfirst | hsecond) | hthird
  · have hrows := row_of_mem_span (by omega) hfirst
    omega
  · have hrows := row_of_mem_span (by omega) hsecond
    omega
  · rw [mem_span_of_fits (by omega)] at hthird
    omega

/-- Whatever is near enough to the left is drawn over by each line of the keys. -/
theorem mem_printed_keys (hx : x ≤ place.column) (hnear : place.column < x + 19)
    (hwidth : place.column < width) (hfirst : y ≤ place.row) (hlast : place.row ≤ y + 2) :
    place ∈ printed width (game.controlsOutputs x y) 0 0 := by
  have hspan : ∀ count ≥ 19, place ∈ span width x place.row count := by
    intro count hcount
    rw [mem_span]
    refine ⟨place.column - x, by omega, ?_⟩
    rw [Nat.add_sub_cancel' hx, Nat.mod_eq_of_lt hwidth, Nat.div_eq_of_lt hwidth]
    rfl
  rw [printed_keys, List.mem_append, List.mem_append]
  have hrow : place.row = y ∨ place.row = y + 1 ∨ place.row = y + 2 := by omega
  rcases hrow with hrow | hrow | hrow
  · exact .inl (.inl (hrow ▸ hspan 47 (by decide)))
  · exact .inl (.inr (hrow ▸ hspan 45 (by decide)))
  · exact .inr (hrow ▸ hspan 19 (by decide))

/-! ## The regions -/

section Regions

variable {height : Nat}

/-- How much room the board takes together with the panel. -/
def totalWidth (game : Game) : Nat := game.rows * squareWidth + 2 + 3 + panelWidth

def layout (game : Game) (width height : Nat) : Layout := .of game.rows width height

def boardPlaces (game : Game) (width height : Nat) : List Place :=
  let layout := game.layout width height
  printed width (game.boardOutputs game.diagram.1 layout.x layout.y) 0 0

/-- Where the panel has a text on some line. -/
def textPlaces (game : Game) (width height line : Nat) (text : String) : List Place :=
  let layout := game.layout width height
  span width layout.panelX (layout.y + line) text.length

def panelPlaces (game : Game) (width height : Nat) : List Place :=
  game.panelTexts.flatMap fun (line, text) => game.textPlaces width height line text

def keyPlaces (game : Game) (width height : Nat) : List Place :=
  let layout := game.layout width height
  printed width (game.controlsOutputs layout.x layout.controlsY) 0 0

theorem printed_frame (game : Game) (width height column row : Nat) :
    printed width (game.frame width height).1 column row =
      game.boardPlaces width height ++ game.panelPlaces width height ++
        game.keyPlaces width height := by
  let layout := game.layout width height
  let board := game.boardOutputs game.diagram.1 layout.x layout.y
  let panel := game.panelOutputs layout.panelX layout.y
  let keys := game.controlsOutputs layout.x layout.controlsY
  have hframe : (game.frame width height).1 =
      [.hideCursor, .background game.colors.background, .clear] ++ board ++ panel ++ keys ++
        [.resetColor, .showCursor] := rfl
  have hend : ∀ column row, printed width [.resetColor, .showCursor] column row = [] :=
    fun _ _ => rfl
  have hkeys : ∀ column row, printed width keys column row = game.keyPlaces width height := by
    intro column row
    rw [keyPlaces, printed_keys, printed_keys]
  have hpanel : ∀ column row, printed width panel column row = game.panelPlaces width height :=
    fun column row => game.printed_panel width layout.panelX layout.y column row
  have hboard : ∀ column row, printed width board column row = game.boardPlaces width height := by
    intro column row
    rw [boardPlaces, boardOutputs_eq, printed_lines]
    exact (congrArg (printed width · column row) (game.boardOutputs_eq _ _ _)).trans
      (printed_lines _ _ _ _)
  rw [hframe, printed_append_of_forall hend, printed_append_of_forall hkeys,
    printed_append_of_forall hpanel, printed_append_of_forall hboard, List.append_nil]
  rfl

/-- Where the regions begin, and that there is room for the panel. -/
theorem layout_spec (hwidth : game.totalWidth < width) (height : Nat) :
    (game.layout width height).panelX = (game.layout width height).x + game.rows * 3 + 5 ∧
      (game.layout width height).controlsY = (game.layout width height).y + game.rows + 3 ∧
      (game.layout width height).panelX + panelWidth ≤ width := by
  refine ⟨rfl, rfl, ?_⟩
  change (if game.totalWidth < width then (width - game.totalWidth) / 2 else 1) +
    (game.rows * squareWidth + 2) + 3 + panelWidth ≤ width
  rw [if_pos hwidth]
  unfold totalWidth at *
  omega

theorem of_mem_boardPlaces (h : Reachable game) (hwidth : game.totalWidth < width)
    (hplace : place ∈ game.boardPlaces width height) :
    place.column < (game.layout width height).panelX ∧
      (game.layout width height).y ≤ place.row ∧
      place.row < (game.layout width height).controlsY := by
  obtain ⟨hpanel, hkeys, hfits⟩ := game.layout_spec hwidth height
  obtain ⟨hcolumn, hrow⟩ := of_mem_printed_board h.sound.grounded.cells
    (by unfold squareWidth; omega) hplace
  unfold squareWidth at hcolumn
  omega

/-- None of the texts of the panel is broken. -/
theorem mem_textPlaces (h : Reachable game) (hsteps : game.steps < 10 ^ 12)
    (hwidth : game.totalWidth < width) {line : Nat} {text : String}
    (hmem : (line, text) ∈ game.panelTexts) :
    place ∈ game.textPlaces width height line text ↔
      place.row = (game.layout width height).y + line ∧
        (game.layout width height).panelX ≤ place.column ∧
        place.column < (game.layout width height).panelX + text.length := by
  obtain ⟨_, _, hfits⟩ := game.layout_spec hwidth height
  have hlength := length_le_panelWidth h hsteps hmem
  exact mem_span_of_fits (by omega)

theorem of_mem_keyPlaces (hwidth : game.totalWidth < width)
    (hplace : place ∈ game.keyPlaces width height) :
    (game.layout width height).controlsY ≤ place.row ∧
      place.row ≤ (game.layout width height).controlsY + 2 := by
  obtain ⟨hpanel, _, hfits⟩ := game.layout_spec hwidth height
  have hrows := game.one_le_rows
  exact of_mem_printed_keys (by unfold panelWidth at hfits; omega) hplace

theorem of_mem_panelTexts {line : Nat} {text : String} (h : (line, text) ∈ game.panelTexts) :
    line ≤ 5 ∨ line = 7 ∧ game.message.isSome = true := by
  simp only [panelTexts_eq, List.mem_append, List.mem_cons, List.not_mem_nil, or_false,
    Prod.mk.injEq, Option.mem_toList, Option.map_eq_some_iff] at h
  rcases h with hlines | ⟨message, hmessage, hline, _⟩
  · left
    omega
  · right
    exact ⟨hline.symm, by simp [hmessage]⟩

theorem status_mem_panelTexts (game : Game) :
    ∃ text, (5, text) ∈ game.panelTexts ∧ 0 < text.length := by
  refine ⟨s!"Status:  {game.statusLine.1}", by simp [panelTexts_eq], ?_⟩
  rw [String.length_append]
  exact Nat.lt_of_lt_of_le (by decide) (Nat.le_add_right 9 _)

theorem message_mem_panelTexts {message : Message} (h : game.message = some message) :
    (7, message.text) ∈ game.panelTexts := by
  simp [panelTexts_eq, h]

/-- The keys cover the texts on their own three lines, as far as the panel has any there. -/
theorem text_covered_iff (h : Reachable game) (hsteps : game.steps < 10 ^ 12)
    (hwidth : game.totalWidth < width) {line : Nat} {text : String}
    (hmem : (line, text) ∈ game.panelTexts) :
    (∃ place ∈ game.textPlaces width height line text, place ∈ game.keyPlaces width height) ↔
      0 < text.length ∧ game.rows + 3 ≤ line ∧ line ≤ game.rows + 5 := by
  obtain ⟨hpanel, hkeys, hfits⟩ := game.layout_spec hwidth height
  constructor
  · intro hcovered
    obtain ⟨place, htext, hkey⟩ := hcovered
    have hplace := (mem_textPlaces h hsteps hwidth hmem).mp htext
    have hrows := of_mem_keyPlaces hwidth hkey
    omega
  · intro hcovered
    have hline := of_mem_panelTexts hmem
    let place : Place :=
      ⟨(game.layout width height).panelX, (game.layout width height).y + line⟩
    have htext : place ∈ game.textPlaces width height line text :=
      (mem_textPlaces h hsteps hwidth hmem).mpr
        ⟨rfl, Nat.le_refl _, Nat.lt_add_of_pos_right hcovered.1⟩
    have hcolumn : place.column = (game.layout width height).x + game.rows * 3 + 5 := hpanel
    have hrow : place.row = (game.layout width height).y + line := rfl
    -- With a text on one of these lines there are at most four rows, and the board is small.
    have hkey : place ∈ game.keyPlaces width height := by
      apply mem_printed_keys
      · omega
      · omega
      · unfold panelWidth at hfits
        omega
      · omega
      · omega
    exact ⟨place, htext, hkey⟩

theorem panel_covered_iff (h : Reachable game) (hsteps : game.steps < 10 ^ 12)
    (hwidth : game.totalWidth < width) :
    (∃ place ∈ game.panelPlaces width height, place ∈ game.keyPlaces width height) ↔
      game.rows ≤ 2 ∨ game.rows ≤ 4 ∧ game.message.isSome = true := by
  constructor
  · intro hcovered
    obtain ⟨place, hpanel, hkey⟩ := hcovered
    obtain ⟨⟨line, text⟩, hmem, htext⟩ := List.mem_flatMap.mp hpanel
    obtain ⟨_, hline, _⟩ := (text_covered_iff h hsteps hwidth hmem).mp ⟨place, htext, hkey⟩
    rcases of_mem_panelTexts hmem with hlines | ⟨hmessage, hsome⟩
    · left
      omega
    · right
      exact ⟨by omega, hsome⟩
  · intro hrows
    have hfirst := game.one_le_rows
    by_cases htwo : game.rows ≤ 2
    · obtain ⟨text, hmem, hpos⟩ := game.status_mem_panelTexts
      obtain ⟨place, htext, hkey⟩ :=
        (text_covered_iff h hsteps hwidth hmem).mpr ⟨hpos, by omega, by omega⟩
      exact ⟨place, List.mem_flatMap.mpr ⟨_, hmem, htext⟩, hkey⟩
    · obtain ⟨hfour, hsome⟩ := hrows.resolve_left htwo
      obtain ⟨message, hmessage⟩ := Option.isSome_iff_exists.mp hsome
      have hmem := message_mem_panelTexts hmessage
      obtain ⟨place, htext, hkey⟩ :=
        (text_covered_iff h hsteps hwidth hmem).mpr
          ⟨length_text_pos message, by omega, by omega⟩
      exact ⟨place, List.mem_flatMap.mpr ⟨_, hmem, htext⟩, hkey⟩

theorem row_lt_of_mem_frame (h : Reachable game) (hsteps : game.steps < 10 ^ 12)
    (hwidth : game.totalWidth < width)
    (hplace : place ∈ printed width (game.frame width height).1 0 0) :
    place.row < (game.layout width height).y + max (game.rows + 6) 8 := by
  obtain ⟨_, hkeys, _⟩ := game.layout_spec hwidth height
  rw [printed_frame, List.mem_append, List.mem_append] at hplace
  rcases hplace with (hboard | hpanel) | hkey
  · have hrow := of_mem_boardPlaces h hwidth hboard
    omega
  · obtain ⟨⟨line, text⟩, hmem, htext⟩ := List.mem_flatMap.mp hpanel
    have hrow := (mem_textPlaces h hsteps hwidth hmem).mp htext
    have hline := of_mem_panelTexts hmem
    omega
  · have hrow := of_mem_keyPlaces hwidth hkey
    omega

theorem not_mem_of_mem_boardPlaces (h : Reachable game) (hsteps : game.steps < 10 ^ 12)
    (hwidth : game.totalWidth < width) (hplace : place ∈ game.boardPlaces width height) :
    place ∉ game.panelPlaces width height ∧ place ∉ game.keyPlaces width height := by
  have hboard := of_mem_boardPlaces h hwidth hplace
  constructor
  · intro hpanel
    obtain ⟨⟨line, text⟩, hmem, htext⟩ := List.mem_flatMap.mp hpanel
    have hcolumn := (mem_textPlaces h hsteps hwidth hmem).mp htext
    omega
  · intro hkey
    have hrow := of_mem_keyPlaces hwidth hkey
    omega

/-- What of a frame is drawn over in the same frame: nothing of the board, and of the panel the
texts on the three lines of the keys. So the panel is covered up to two rows, and up to four if
there is a message. -/
theorem regions_overlap_iff (h : Reachable game) (hsteps : game.steps < 10 ^ 12)
    (hwidth : game.totalWidth < width) (height : Nat) :
    printed width (game.frame width height).1 0 0 =
      game.boardPlaces width height ++ game.panelPlaces width height ++
        game.keyPlaces width height ∧
    (∀ place ∈ printed width (game.frame width height).1 0 0,
      place.column < width ∧
        place.row < (game.layout width height).y + max (game.rows + 6) 8) ∧
    (∀ place ∈ game.boardPlaces width height,
      place ∉ game.panelPlaces width height ∧ place ∉ game.keyPlaces width height) ∧
    (∀ line text, (line, text) ∈ game.panelTexts →
      ((∃ place ∈ game.textPlaces width height line text, place ∈ game.keyPlaces width height) ↔
        0 < text.length ∧ game.rows + 3 ≤ line ∧ line ≤ game.rows + 5)) ∧
    ((∃ place ∈ game.panelPlaces width height, place ∈ game.keyPlaces width height) ↔
      game.rows ≤ 2 ∨ game.rows ≤ 4 ∧ game.message.isSome = true) := by
  have hpos : 0 < width := Nat.zero_lt_of_lt hwidth
  refine ⟨game.printed_frame width height 0 0, ?_, ?_, ?_, ?_⟩
  · intro place hplace
    exact ⟨column_lt_of_mem_printed hpos hplace, row_lt_of_mem_frame h hsteps hwidth hplace⟩
  · intro place hplace
    exact not_mem_of_mem_boardPlaces h hsteps hwidth hplace
  · intro line text hmem
    exact text_covered_iff h hsteps hwidth hmem
  · exact panel_covered_iff h hsteps hwidth

theorem one_row_panel_covered :
    let game := new ⟨.backtracking, { rows := 1 }⟩ default defaultDelay
    Reachable game ∧ game.steps < 10 ^ 12 ∧ game.totalWidth < 100 ∧
      ∃ place ∈ game.panelPlaces 100 40, place ∈ game.keyPlaces 100 40 :=
  ⟨.new _ _ _, by decide, by decide,
    (regions_overlap_iff (.new _ _ _) (by decide) (by decide) 40).2.2.2.2.mpr (.inl (by decide))⟩

/-- On four rows the keys cover the message that another engine has been chosen. -/
theorem four_rows_message_covered :
    let game := ((new ⟨.backtracking, { rows := 4 }⟩ default defaultDelay).press
      { code := .character 'e' }).game
    Reachable game ∧ game.totalWidth < 100 ∧ game.message = some (.engineChosen .astar) ∧
      (7, (Message.engineChosen .astar).text) ∈ game.panelTexts ∧
      ∃ place ∈ game.textPlaces 100 40 7 (Message.engineChosen .astar).text,
        place ∈ game.keyPlaces 100 40 :=
  ⟨.press (.new _ _ _) _, by decide, rfl, message_mem_panelTexts rfl,
    ⟨44, 9⟩, by decide +kernel, by decide +kernel⟩

end Regions

end Game

end Console

end QueensPuzzle
