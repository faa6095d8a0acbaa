import QueensPuzzle.Board.Codec
import QueensPuzzle.Config
import QueensPuzzle.Proofs.Json.Reader

/-! # What is written is read back

Squares, cells, positions, diagrams and settings are written as objects with their members in order,
and read back from their texts. A number is read back if it fits into the word that its reader
takes, and no reader takes another one, so what was read can be written and read again. The name of
a cell may be any string.
-/

namespace QueensPuzzle

open Json (Reader)
open Json.Reader

namespace Json

variable {α : Type}

/-- What fits is read back from its text, and what is read from any text fits. So what was read is
the same after it is written and read again, and then it is also written the same. -/
structure RoundTrips (toJson : α → Json) (reader : Reader α) (fits : α → Prop) : Prop where
  read_text : ∀ value, fits value → reader.readAll (toJson value).text = .ok value
  fits_of_read : ∀ text value, reader.readAll text = .ok value → fits value
  read_again : ∀ text value, reader.readAll text = .ok value →
    ∃ again, reader.readAll (toJson value).text = .ok again ∧ again = value ∧
      (toJson again).text = (toJson value).text

theorem RoundTrips.of {toJson : α → Json} {reader : Reader α} {fits : α → Prop}
    (hreads : ∀ value, fits value → reader.Reads (toJson value) value)
    (hyields : reader.Yields fits) : RoundTrips toJson reader fits where
  read_text := fun value h => (hreads value h).readAll
  fits_of_read := fun _ _ hread => hyields.of_readAll hread
  read_again := fun _ value hread =>
    ⟨value, (hreads value (hyields.of_readAll hread)).readAll, rfl, rfl⟩

end Json

/-! ## Squares -/

namespace Square

/-- The coordinates are unsigned words. -/
structure Fits (square : Square) : Prop where
  row : square.row < UInt64.size
  column : square.column < UInt64.size

theorem reads {square : Square} (h : square.Fits) : reader.Reads square.toJson square :=
  reads_record
    (.cons _ rfl rfl (reads_fill (reads_word h.row) _)
      (.cons _ rfl rfl (reads_fill (reads_word h.column) _) .nil))
    rfl

structure Draft.Fits (draft : Draft) : Prop where
  row : ∀ n ∈ draft.row, n < UInt64.size
  column : ∀ n ∈ draft.column, n < UInt64.size

theorem finish_eq_some_iff {draft : Draft} {square : Square} :
    finish draft = some square ↔ draft = ⟨some square.row, some square.column⟩ := by
  obtain ⟨_, _⟩ := square
  obtain ⟨row, column⟩ := draft
  cases row <;> cases column <;> simp [finish]

theorem yields : reader.Yields Fits := by
  have hmembers : ∀ member ∈ members, ∀ draft : Draft, draft.Fits →
      (member.fill draft).Yields Draft.Fits := by
    simp only [members, List.forall_mem_cons]
    refine ⟨?_, ?_, nofun⟩
    · intro draft h
      exact yields_fill yields_word fun n hn => { h with row := forall_mem_some hn }
    · intro draft h
      exact yields_fill yields_word fun n hn => { h with column := forall_mem_some hn }
  refine yields_record hmembers ⟨nofun, nofun⟩ ?_
  intro draft square h hfinish
  obtain rfl := finish_eq_some_iff.mp hfinish
  exact ⟨h.row _ rfl, h.column _ rfl⟩

end Square

/-! ## Cells -/

namespace Cell

/-- The coordinates are unsigned words, and the indices are signed ones. -/
structure Fits (cell : Cell) : Prop where
  row : cell.row < UInt64.size
  column : cell.column < UInt64.size
  diagonals : IsSignedWord cell.diagonals.1 ∧ IsSignedWord cell.diagonals.2

theorem reads {cell : Cell} (h : cell.Fits) : reader.Reads cell.toJson cell :=
  reads_record
    (.cons _ rfl rfl (reads_fill (reads_word h.row) _)
      (.cons _ rfl rfl (reads_fill (reads_word h.column) _)
        (.cons _ rfl rfl (reads_fill (reads_string cell.key) _)
          (.cons _ rfl rfl (reads_fill (reads_pair (reads_signedWord h.diagonals.1)
            (reads_signedWord h.diagonals.2)) _) .nil))))
    rfl

structure Draft.Fits (draft : Draft) : Prop where
  row : ∀ n ∈ draft.row, n < UInt64.size
  column : ∀ n ∈ draft.column, n < UInt64.size
  diagonals : ∀ indices ∈ draft.diagonals, IsSignedWord indices.1 ∧ IsSignedWord indices.2

theorem finish_eq_some_iff {draft : Draft} {cell : Cell} :
    finish draft = some cell ↔
      draft = ⟨some cell.row, some cell.column, some cell.key, some cell.diagonals⟩ := by
  obtain ⟨_, _, _, _⟩ := cell
  obtain ⟨row, column, key, diagonals⟩ := draft
  cases row <;> cases column <;> cases key <;> cases diagonals <;> simp [finish]

theorem yields : reader.Yields Fits := by
  have hmembers : ∀ member ∈ members, ∀ draft : Draft, draft.Fits →
      (member.fill draft).Yields Draft.Fits := by
    simp only [members, List.forall_mem_cons]
    refine ⟨?_, ?_, ?_, ?_, nofun⟩
    · intro draft h
      exact yields_fill yields_word fun n hn => { h with row := forall_mem_some hn }
    · intro draft h
      exact yields_fill yields_word fun n hn => { h with column := forall_mem_some hn }
    · intro draft h
      exact yields_fill (yields_true _) fun _ _ => { h with }
    · intro draft h
      exact yields_fill (yields_pair yields_signedWord yields_signedWord)
        fun indices hindices => { h with diagonals := forall_mem_some hindices }
  refine yields_record hmembers ⟨nofun, nofun, nofun⟩ ?_
  intro draft cell h hfinish
  obtain rfl := finish_eq_some_iff.mp hfinish
  exact ⟨h.row _ rfl, h.column _ rfl, h.diagonals _ rfl⟩

end Cell

/-! ## Positions -/

namespace Position

def Fits (position : Position) : Prop := ∀ queen ∈ position.queens, queen.Fits

theorem reads {position : Position} (h : position.Fits) :
    reader.Reads position.toJson position :=
  reads_record
    (.cons _ rfl rfl
      (reads_fill (reads_list fun queen hqueen => Cell.reads (h queen hqueen)) _) .nil)
    rfl

def Draft.Fits (draft : Draft) : Prop := ∀ queens ∈ draft.queens, ∀ queen ∈ queens, queen.Fits

theorem yields : reader.Yields Fits := by
  have hmembers : ∀ member ∈ members, ∀ draft : Draft, draft.Fits →
      (member.fill draft).Yields Draft.Fits := by
    simp only [members, List.forall_mem_cons]
    refine ⟨?_, nofun⟩
    intro draft _
    exact yields_fill (yields_list Cell.yields) fun _ hqueens => forall_mem_some hqueens
  refine yields_record hmembers nofun ?_
  intro draft position h hfinish
  obtain ⟨queens, hqueens, rfl⟩ := Option.map_eq_some_iff.mp hfinish
  exact h queens hqueens

end Position

/-! ## Diagrams -/

theorem Shade.reads (shade : Shade) : reader.Reads shade.toJson shade :=
  reads_oneOf (by cases shade <;> rfl)

theorem Occupancy.reads (occupancy : Occupancy) : reader.Reads occupancy.toJson occupancy :=
  reads_oneOf (by cases occupancy <;> rfl)

namespace Diagram

theorem Entry.reads {entry : Entry} (h : entry.cell.Fits) :
    Entry.reader.Reads entry.toJson entry :=
  reads_record
    (.cons _ rfl rfl (reads_fill (Cell.reads h) _)
      (.cons _ rfl rfl (reads_fill (Shade.reads entry.shade) _)
        (.cons _ rfl rfl (reads_fill (Occupancy.reads entry.occupancy) _) .nil)))
    rfl

def Entry.Draft.Fits (draft : Entry.Draft) : Prop := ∀ cell ∈ draft.cell, cell.Fits

theorem Entry.finish_eq_some_iff {draft : Entry.Draft} {entry : Entry} :
    Entry.finish draft = some entry ↔
      draft = ⟨some entry.cell, some entry.shade, some entry.occupancy⟩ := by
  obtain ⟨_, _, _⟩ := entry
  obtain ⟨cell, shade, occupancy⟩ := draft
  cases cell <;> cases shade <;> cases occupancy <;> simp [Entry.finish]

theorem Entry.yields : Entry.reader.Yields fun entry => entry.cell.Fits := by
  have hmembers : ∀ member ∈ Entry.members, ∀ draft : Entry.Draft, draft.Fits →
      (member.fill draft).Yields Entry.Draft.Fits := by
    simp only [Entry.members, List.forall_mem_cons]
    refine ⟨?_, ?_, ?_, nofun⟩
    · intro draft _
      exact yields_fill Cell.yields fun _ hcell => forall_mem_some hcell
    · intro draft h
      exact yields_fill (yields_true _) fun _ _ => h
    · intro draft h
      exact yields_fill (yields_true _) fun _ _ => h
  refine yields_record hmembers nofun ?_
  intro draft entry h hfinish
  obtain rfl := Entry.finish_eq_some_iff.mp hfinish
  exact h _ rfl

/-- The number of the row is an unsigned word, and the cells fit. -/
structure Row.Fits (row : Row) : Prop where
  index : row.index < UInt64.size
  entries : ∀ entry ∈ row.entries, entry.cell.Fits

theorem Row.reads {row : Row} (h : row.Fits) : Row.reader.Reads row.toJson row :=
  reads_record
    (.cons _ rfl rfl (reads_fill (reads_word h.index) _)
      (.cons _ rfl rfl
        (reads_fill (reads_list fun entry hentry => Entry.reads (h.entries entry hentry)) _) .nil))
    rfl

structure Row.Draft.Fits (draft : Row.Draft) : Prop where
  index : ∀ n ∈ draft.index, n < UInt64.size
  entries : ∀ entries ∈ draft.entries, ∀ entry ∈ entries, entry.cell.Fits

theorem Row.finish_eq_some_iff {draft : Row.Draft} {row : Row} :
    Row.finish draft = some row ↔ draft = ⟨some row.index, some row.entries⟩ := by
  obtain ⟨_, _⟩ := row
  obtain ⟨index, entries⟩ := draft
  cases index <;> cases entries <;> simp [Row.finish]

theorem Row.yields : Row.reader.Yields Row.Fits := by
  have hmembers : ∀ member ∈ Row.members, ∀ draft : Row.Draft, draft.Fits →
      (member.fill draft).Yields Row.Draft.Fits := by
    simp only [Row.members, List.forall_mem_cons]
    refine ⟨?_, ?_, nofun⟩
    · intro draft h
      exact yields_fill yields_word fun n hn => { h with index := forall_mem_some hn }
    · intro draft h
      exact yields_fill (yields_list Entry.yields)
        fun _ hentries => { h with entries := forall_mem_some hentries }
  refine yields_record hmembers ⟨nofun, nofun⟩ ?_
  intro draft row h hfinish
  obtain rfl := Row.finish_eq_some_iff.mp hfinish
  exact ⟨h.index _ rfl, h.entries _ rfl⟩

def Fits (diagram : Diagram) : Prop := ∀ row ∈ diagram.rows, row.Fits

theorem reads {diagram : Diagram} (h : diagram.Fits) : reader.Reads diagram.toJson diagram :=
  reads_record
    (.cons _ rfl rfl (reads_fill (reads_list fun row hrow => Row.reads (h row hrow)) _) .nil) rfl

def Draft.Fits (draft : Draft) : Prop := ∀ rows ∈ draft.rows, ∀ row ∈ rows, row.Fits

theorem yields : reader.Yields Fits := by
  have hmembers : ∀ member ∈ members, ∀ draft : Draft, draft.Fits →
      (member.fill draft).Yields Draft.Fits := by
    simp only [members, List.forall_mem_cons]
    refine ⟨?_, nofun⟩
    intro draft _
    exact yields_fill (yields_list Row.yields) fun _ hrows => forall_mem_some hrows
  refine yields_record hmembers nofun ?_
  intro draft diagram h hfinish
  obtain ⟨rows, hrows, rfl⟩ := Option.map_eq_some_iff.mp hfinish
  exact h rows hrows

end Diagram

/-! ## Settings -/

theorem Engine.reads (engine : Engine) : reader.Reads engine.toJson engine :=
  reads_oneOf (by cases engine <;> rfl)

namespace BoardSize

theorem reads (size : BoardSize) : reader.Reads size.toJson size := by
  have hrows : size.rows < UInt64.size := Nat.lt_of_le_of_lt size.rows_le_max (by decide)
  exact (reads_word hrows).accept ((ofNat_eq_ok_iff size.rows size).mpr rfl)

theorem ofNat_of_outside {n : Nat} (h : ¬(1 ≤ n ∧ n ≤ maxBoardSize)) :
    ofNat n = .error (.invalidBoardSize n) := dif_neg h

theorem readAll_eq_ok_iff {text : String} {size : BoardSize} :
    reader.readAll text = .ok size ↔ Reader.word.readAll text = .ok size.rows := by
  refine readAll_accept_eq_ok_iff.trans ?_
  simp only [ofNat_eq_ok_iff]
  constructor
  · rintro ⟨n, hread, rfl⟩
    exact hread
  · intro hread
    exact ⟨size.rows, hread, rfl⟩

end BoardSize

namespace Config

theorem reads (config : Config) : reader.Reads config.toJson config :=
  reads_record
    (.cons _ rfl rfl (reads_fill config.engine.reads _)
      (.cons _ rfl rfl (reads_fill config.boardSize.reads _) .nil))
    rfl

variable {n : Nat}

theorem refuses_size (hn : n < UInt64.size) (houtside : ¬(1 ≤ n ∧ n ≤ maxBoardSize)) :
    BoardSize.reader.Refuses (.nat n) (.refused (.invalidBoardSize n)) :=
  (reads_word hn).refuses_accept (BoardSize.ofNat_of_outside houtside)

/-- The size of the board is refused, and what stands behind it is not looked at. -/
theorem refuses (hn : n < UInt64.size) (houtside : ¬(1 ≤ n ∧ n ≤ maxBoardSize))
    {fields : List (String × Json)} {draft : Draft} (h : Gathers members {} fields draft)
    (hopen : draft.boardSize = none) (more : List (String × Json)) :
    reader.Refuses (.object (fields ++ ("board_size", .nat n) :: more))
      (.refused (.invalidBoardSize n)) := by
  have hunfilled : draft.boardSize.isSome = false := by rw [hopen]; rfl
  exact refuses_record h rfl hunfilled (refuses_fill (refuses_size hn houtside) draft) more

end Config

/-- Positions, diagrams and their rows, cells, squares and settings are read back from their texts
if their numbers are words of 64 bits, and whatever is read from a text is one that is read back.
The size of a board is read from the texts of numbers from 1 to 24, and every other number is
refused, also as the size in settings, in front of the engine or behind it. -/
theorem json_round_trips :
    Json.RoundTrips Position.toJson Position.reader Position.Fits ∧
    Json.RoundTrips Diagram.toJson Diagram.reader Diagram.Fits ∧
    Json.RoundTrips Diagram.Row.toJson Diagram.Row.reader Diagram.Row.Fits ∧
    Json.RoundTrips Cell.toJson Cell.reader Cell.Fits ∧
    Json.RoundTrips Square.toJson Square.reader Square.Fits ∧
    Json.RoundTrips Config.toJson Config.reader (fun _ => True) ∧
    (∀ text n, Reader.word.readAll text = .ok n →
      (∀ size : BoardSize, BoardSize.reader.readAll text = .ok size ↔ size.rows = n) ∧
      (¬(1 ≤ n ∧ n ≤ 24) →
        BoardSize.reader.readAll text = .error (.refused (.invalidBoardSize n)))) ∧
    (∀ text size, BoardSize.reader.readAll text = .ok size →
      Reader.word.readAll text = .ok size.rows ∧ 1 ≤ size.rows ∧ size.rows ≤ 24) ∧
    (∀ text config, Config.reader.readAll text = .ok config →
      1 ≤ config.boardSize.rows ∧ config.boardSize.rows ≤ 24) ∧
    ∀ (engine : Engine) (n : Nat) (more : List (String × Json)), n < UInt64.size →
      ¬(1 ≤ n ∧ n ≤ 24) →
      ∀ before ∈ [[], [("engine", engine.toJson)]],
        Config.reader.readAll (Json.object (before ++ ("board_size", .nat n) :: more)).text =
          .error (.refused (.invalidBoardSize n)) := by
  refine ⟨.of (fun _ => Position.reads) Position.yields,
    .of (fun _ => Diagram.reads) Diagram.yields,
    .of (fun _ => Diagram.Row.reads) Diagram.Row.yields,
    .of (fun _ => Cell.reads) Cell.yields, .of (fun _ => Square.reads) Square.yields,
    .of (fun config _ => config.reads) (yields_true _), ?_, ?_, ?_, ?_⟩
  · intro text n hread
    refine ⟨?_, ?_⟩
    · intro size
      rw [BoardSize.readAll_eq_ok_iff, hread, Except.ok.injEq]
      exact eq_comm
    · intro houtside
      exact readAll_accept_of_error hread (BoardSize.ofNat_of_outside houtside)
  · intro text size hread
    exact ⟨BoardSize.readAll_eq_ok_iff.mp hread, size.one_le_rows, size.rows_le_max⟩
  · intro text config _
    exact ⟨config.boardSize.one_le_rows, config.boardSize.rows_le_max⟩
  · intro engine n more hn houtside before hbefore
    simp only [List.mem_cons, List.not_mem_nil, or_false] at hbefore
    rcases hbefore with rfl | rfl
    · exact (Config.refuses hn houtside .nil rfl more).readAll
    · have hengine : Gathers Config.members {} [("engine", engine.toJson)]
          { engine := some engine } := .cons _ rfl rfl (reads_fill engine.reads _) .nil
      exact (Config.refuses hn houtside hengine rfl more).readAll

/-- A cell with the largest and the smallest numbers, and with a name in which a quote, a backslash,
control characters and a character beyond 16 bits stand. -/
theorem extreme_cell_reads_back :
    let cell : Cell := ⟨UInt64.size - 1, 0, "\"\\\x01\n\x7f𝄞",
      (Int64.minValue.toInt, Int64.maxValue.toInt)⟩
    Cell.reader.readAll cell.toJson.text = .ok cell := by
  intro cell
  obtain ⟨_, _, _, hcell, _⟩ := json_round_trips
  exact hcell.read_text cell ⟨by decide, by decide, ⟨by decide, by decide⟩, by decide, by decide⟩

end QueensPuzzle
