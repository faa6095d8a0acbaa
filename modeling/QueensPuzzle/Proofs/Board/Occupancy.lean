import Mathlib.Data.List.Nodup
import QueensPuzzle.Board.Position
import QueensPuzzle.Proofs.Placement.Legal

/-! # What a cell shows

On a board no falling diagonal has the index of a rising one, so two cells have an index in
common exactly if their squares are on one diagonal. An empty cell is then one that no queen
attacks, and toggling it leaves the queens in peace. A cache hands out nothing but the cells
of its board, whatever was asked for before.
-/

namespace QueensPuzzle

variable {size : Nat} {squares : List Square} {square other : Square}

namespace Cell

theorem of_inj : Cell.of square.row square.column size = Cell.of other.row other.column size ↔
    square = other := by
  constructor
  · intro h
    obtain ⟨row, column⟩ := square
    obtain ⟨_, _⟩ := other
    have hrow := congrArg Cell.row h
    have hcolumn := congrArg Cell.column h
    exact congrArg₂ Square.mk hrow hcolumn
  · intro h
    rw [h]

/-- The sum of the coordinates comes with the size added, which puts it above every difference. -/
theorem sharesDiagonal_of (hsize : size < UInt64.size / 2)
    (hsquare : square.row < size ∧ square.column < size)
    (hother : other.row < size ∧ other.column < size) :
    (Cell.of square.row square.column size).sharesDiagonal (.of other.row other.column size) =
      (square.row + other.column == other.row + square.column ||
        square.row + square.column == other.row + other.column) := by
  have hr := Square.signedWord_of_lt (Nat.lt_trans hsquare.1 hsize)
  have hc := Square.signedWord_of_lt (Nat.lt_trans hsquare.2 hsize)
  have hr' := Square.signedWord_of_lt (Nat.lt_trans hother.1 hsize)
  have hc' := Square.signedWord_of_lt (Nat.lt_trans hother.2 hsize)
  have hs := Square.signedWord_of_lt hsize
  rw [Bool.eq_iff_iff]
  simp only [sharesDiagonal, of, hr, hc, hr', hc', hs, Bool.or_eq_true, beq_iff_eq]
  omega

/-- Whether a queen on the one cell keeps the other from taking a queen. -/
def blocks (a b : Cell) : Bool := a.column == b.column || a.row == b.row || a.sharesDiagonal b

theorem blocks_of (hsize : size < UInt64.size / 2)
    (hsquare : square.row < size ∧ square.column < size)
    (hother : other.row < size ∧ other.column < size) :
    (Cell.of square.row square.column size).blocks (.of other.row other.column size) =
      square.attacks other := by
  rw [blocks, sharesDiagonal_of hsize hsquare hother, Bool.eq_iff_iff]
  simp only [of, Square.attacks, Bool.or_eq_true, beq_iff_eq]
  omega

end Cell

namespace Position

@[simp] theorem queenCount_ofSquares (squares : List Square) (size : Nat) :
    (ofSquares squares size).queenCount = squares.length := List.length_map _

@[simp] theorem squares_ofSquares (squares : List Square) (size : Nat) :
    (ofSquares squares size).squares = squares := by
  rw [ofSquares, Position.squares, List.map_map]
  exact List.map_id squares

theorem nodup_ofSquares (h : squares.Nodup) : (ofSquares squares size).queens.Nodup :=
  h.map fun _ _ hcells => Cell.of_inj.mp hcells

/-- A queen on the cell itself is in its row, so it need not be ruled out apart. -/
theorem occupancy_eq_empty_iff (position : Position) (cell : Cell) :
    position.occupancy cell = .empty ↔ position.isBlocked cell = false := by
  have hself : position.queens.any (· == cell) = true → position.isBlocked cell = true := by
    intro h
    obtain ⟨queen, hqueen, hcell⟩ := List.any_eq_true.mp h
    obtain rfl := eq_of_beq hcell
    exact List.any_eq_true.mpr ⟨queen, hqueen, by simp⟩
  unfold occupancy
  split
  · rename_i hany
    simp [hself hany]
  · split <;> simp_all

theorem occupancy_eq_blocked_iff (position : Position) (cell : Cell) :
    position.occupancy cell = .blocked ↔
      position.occupancy cell ≠ .queen ∧ position.occupancy cell ≠ .empty := by
  cases position.occupancy cell <;> simp

/-- What a cell shows does not depend on the order of the queens. -/
theorem occupancy_congr {position another : Position} (cell : Cell)
    (h : ∀ queen, queen ∈ position.queens ↔ queen ∈ another.queens) :
    position.occupancy cell = another.occupancy cell := by
  have hany (test : Cell → Bool) : position.queens.any test = another.queens.any test := by
    rw [Bool.eq_iff_iff, List.any_eq_true, List.any_eq_true]
    simp only [h]
  rw [occupancy, occupancy, isBlocked, isBlocked, hany, hany]

theorem isBlocked_ofSquares (hsize : size < UInt64.size / 2)
    (hsquares : ∀ queen ∈ squares, queen.row < size ∧ queen.column < size)
    (hsquare : square.row < size ∧ square.column < size) :
    (ofSquares squares size).isBlocked (.of square.row square.column size) = true ↔
      ∃ queen ∈ squares, queen.attacks square = true := by
  rw [isBlocked, ofSquares, List.any_map, List.any_eq_true]
  apply exists_congr
  intro queen
  apply and_congr_right
  intro hqueen
  exact Bool.eq_iff_iff.mp (Cell.blocks_of hsize (hsquares queen hqueen) hsquare)

theorem occupancy_ofSquares_eq_queen_iff :
    (ofSquares squares size).occupancy (.of square.row square.column size) = .queen ↔
      square ∈ squares := by
  rw [occupancy_eq_queen_iff, ofSquares, List.mem_map]
  constructor
  · intro h
    obtain ⟨queen, hqueen, hcell⟩ := h
    rwa [← Cell.of_inj.mp hcell]
  · intro h
    exact ⟨square, h, rfl⟩

theorem occupancy_ofSquares_eq_empty_iff (hsize : size < UInt64.size / 2)
    (hsquares : ∀ queen ∈ squares, queen.row < size ∧ queen.column < size)
    (hsquare : square.row < size ∧ square.column < size) :
    (ofSquares squares size).occupancy (.of square.row square.column size) = .empty ↔
      ∀ queen ∈ squares, queen.attacks square = false := by
  have hblocked := isBlocked_ofSquares hsize hsquares hsquare
  rw [occupancy_eq_empty_iff, ← Bool.not_eq_true, hblocked]
  simp

theorem occupancy_ofSquares_eq_blocked_iff (hsize : size < UInt64.size / 2)
    (hsquares : ∀ queen ∈ squares, queen.row < size ∧ queen.column < size)
    (hsquare : square.row < size ∧ square.column < size) :
    (ofSquares squares size).occupancy (.of square.row square.column size) = .blocked ↔
      square ∉ squares ∧ ∃ queen ∈ squares, queen.attacks square = true := by
  rw [occupancy_eq_blocked_iff, Ne, Ne, occupancy_ofSquares_eq_queen_iff,
    occupancy_ofSquares_eq_empty_iff hsize hsquares hsquare]
  simp

/-- The squares with a queen after the cell of a square was toggled. -/
def toggled (squares : List Square) (square : Square) : Occupancy → List Square
  | .empty => squares ++ [square]
  | .queen => squares.filter (· != square)
  | .blocked => squares

theorem toggle_ofSquares (squares : List Square) (square : Square) (size : Nat) :
    let cell := Cell.of square.row square.column size
    ((ofSquares squares size).toggle cell).2 =
      ofSquares (toggled squares square ((ofSquares squares size).occupancy cell)) size := by
  intro cell
  unfold toggle
  cases hbefore : (ofSquares squares size).occupancy cell with
  | empty => simp [toggled, ofSquares, cell]
  | blocked => rfl
  | queen =>
      simp only [toggled, ofSquares, List.filter_map]
      congr 2
      apply List.filter_congr
      intro queen _
      rw [Function.comp_apply, Bool.eq_iff_iff, bne_iff_ne, bne_iff_ne]
      exact not_congr Cell.of_inj

/-- What is toggled is empty or has a queen: either way the queens stay in peace. -/
theorem peaceful_toggled (hsize : size < UInt64.size / 2) (h : Peaceful size squares)
    (hsquare : square.row < size ∧ square.column < size) :
    Peaceful size (toggled squares square
      ((ofSquares squares size).occupancy (.of square.row square.column size))) := by
  cases hbefore : (ofSquares squares size).occupancy (.of square.row square.column size) with
  | empty =>
      have hnone := (occupancy_ofSquares_eq_empty_iff hsize h.on_board hsquare).mp hbefore
      exact Peaceful.concat_iff.mpr ⟨h, hsquare, hnone⟩
  | queen => exact h.sublist List.filter_sublist
  | blocked => exact h

end Position

namespace CellCache

/-- The cache is one for boards of the given size, and holds their cells under their squares. -/
structure Serves (size : Nat) (cache : CellCache) : Prop where
  size_eq : cache.size = size
  cell_eq : ∀ (square : Square) (cell : Cell), cache.cells[square]? = some cell →
    cell = Cell.of square.row square.column size

theorem serves_new (size : Nat) : (new size).Serves size :=
  ⟨rfl, by simp [new]⟩

theorem get_apply (row column : Nat) (cache : CellCache) :
    get row column cache =
      match cache.cells[(⟨row, column⟩ : Square)]? with
      | some cell => (cell, cache)
      | none =>
          let cell := Cell.of row column cache.size
          (cell, ⟨cache.size, cache.cells.insert ⟨row, column⟩ cell⟩) := rfl

/-- A cell that was handed out is kept. -/
theorem get_get_snd (row column : Nat) (cache : CellCache) :
    (get row column (get row column cache).2).2 = (get row column cache).2 := by
  cases hknown : cache.cells[(⟨row, column⟩ : Square)]? with
  | some cell => simp only [get_apply, hknown]
  | none => simp [get_apply, hknown]

namespace Serves

variable {cache : CellCache}

theorem get_fst (h : cache.Serves size) (row column : Nat) :
    (get row column cache).1 = Cell.of row column size := by
  rw [get_apply]
  cases hcell : cache.cells[(⟨row, column⟩ : Square)]? with
  | some cell => exact h.cell_eq ⟨row, column⟩ cell hcell
  | none =>
      change Cell.of row column cache.size = _
      rw [h.size_eq]

theorem get_snd (h : cache.Serves size) (row column : Nat) :
    (get row column cache).2.Serves size := by
  rw [get_apply]
  cases hknown : cache.cells[(⟨row, column⟩ : Square)]? with
  | some cell => exact h
  | none =>
      refine ⟨h.size_eq, ?_⟩
      intro square cell hcell
      rw [Std.HashMap.getElem?_insert] at hcell
      split at hcell
      · rename_i hsquare
        obtain rfl := eq_of_beq hsquare
        rw [← h.size_eq]
        exact (Option.some.inj hcell).symm
      · exact h.cell_eq square cell hcell

end Serves

/-- The caches that boards of a size come to have: a new one, and what is left of one of them when
a cell was asked for. -/
inductive Used (size : Nat) : CellCache → Prop
  | new : Used size (new size)
  | get {cache : CellCache} (h : Used size cache) (row column : Nat) :
      Used size (CellCache.get row column cache).2

theorem Used.serves {cache : CellCache} (h : cache.Used size) : cache.Serves size := by
  induction h with
  | new => exact serves_new size
  | get _ row column ih => exact ih.get_snd row column

/-- Where the caches that hold do not matter for what a visit gives, visits to all of a list
give what each gives, and keep what each keeps. -/
theorem mapM_spec {α β : Type} (holds : CellCache → Prop) {visit : α → StateM CellCache β}
    {value : α → β}
    (hvisit : ∀ a cache, holds cache → (visit a cache).1 = value a ∧ holds (visit a cache).2)
    (items : List α) {cache : CellCache} (h : holds cache) :
    (items.mapM visit cache).1 = items.map value ∧ holds (items.mapM visit cache).2 := by
  induction items generalizing cache with
  | nil => exact ⟨rfl, h⟩
  | cons item items ih =>
      obtain ⟨hvalue, hkept⟩ := hvisit item cache h
      obtain ⟨hvalues, hlast⟩ := ih hkept
      rw [List.mapM_cons, List.map_cons, ← hvalue, ← hvalues]
      exact ⟨rfl, hlast⟩

/-- The picture shows every cell of the board, whatever was asked for before. -/
theorem Serves.describe_spec {cache : CellCache} (h : cache.Serves size) (position : Position) :
    (position.describe cache).1 =
      ⟨(List.range size).map fun row => ⟨row, (List.range size).map fun column =>
        ⟨.of row column size, .of row column, position.occupancy (.of row column size)⟩⟩⟩ ∧
    (position.describe cache).2.Serves size := by
  obtain ⟨_, cells⟩ := cache
  obtain rfl := h.size_eq
  refine And.imp_left (congrArg Diagram.mk) (mapM_spec (Serves _) ?_ _ h)
  intro row cache hcache
  refine And.imp_left (congrArg (Diagram.Row.mk row)) (mapM_spec (Serves _) ?_ _ hcache)
  intro column cache hcache
  refine ⟨?_, hcache.get_snd row column⟩
  rw [← hcache.get_fst row column]
  rfl

theorem Serves.describe {cache : CellCache} (h : cache.Serves size) (position : Position) :
    (position.describe cache).2.Serves size := (h.describe_spec position).2

/-- The picture is the one that is made with a new cache. -/
theorem Serves.describe_fst {cache : CellCache} (h : cache.Serves size) (position : Position) :
    (position.describe cache).1 = position.diagram size :=
  (h.describe_spec position).1.trans ((serves_new size).describe_spec position).1.symm

end CellCache

end QueensPuzzle
