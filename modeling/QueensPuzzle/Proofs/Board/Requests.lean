import Mathlib.Data.Finset.Card
import QueensPuzzle.Proofs.Board.Occupancy
import QueensPuzzle.Proofs.Placement.OpenSquares

/-! # What a cache was asked for

A cache is asked for single cells, on the board or off it, and for pictures, each of which takes the
cells of the whole board row by row. It holds the cells of the squares that were asked for and no
others, each of them once.
-/

namespace QueensPuzzle.CellCache

/-- What a cache can be asked for. -/
inductive Request where
  | cell (square : Square)
  | picture (position : Position)

/-- The squares of a board, row by row. -/
def boardSquares (size : Nat) : List Square := (List.range size).flatMap (Placement.rowSquares size)

/-- The squares whose cells are asked for, one after the other. -/
def Request.squares (size : Nat) : Request → List Square
  | .cell square => [square]
  | .picture _ => boardSquares size

/-- The cache after the cell of a square was taken from it. -/
def handOut (cache : CellCache) (square : Square) : CellCache :=
  (get square.row square.column cache).2

/-- The cache after a request. -/
def serve (cache : CellCache) : Request → CellCache
  | .cell square => cache.handOut square
  | .picture position => (position.describe cache).2

variable {size : Nat} {square : Square} {squares : List Square} {cache : CellCache}

theorem mem_boardSquares :
    square ∈ boardSquares size ↔ square.row < size ∧ square.column < size := by
  simp [boardSquares, Placement.mem_rowSquares]

theorem nodup_boardSquares (size : Nat) : (boardSquares size).Nodup := by
  have hempty : Placement.Legal size (.empty size) := .empty
  exact hempty.ordered_openSquares.nodup

theorem length_boardSquares (size : Nat) : (boardSquares size).length = size * size := by
  simp [boardSquares, Placement.rowSquares, List.length_flatMap]

/-! ## Pictures -/

/-- Visits to all of a list leave the cache that they leave one after the other. -/
theorem mapM_snd {α β : Type} (visit : α → StateM CellCache β) (items : List α)
    (cache : CellCache) :
    (items.mapM visit cache).2 = items.foldl (fun cache item => (visit item cache).2) cache := by
  induction items generalizing cache with
  | nil => rfl
  | cons item items ih =>
      rw [List.mapM_cons, List.foldl_cons, ← ih]
      rfl

theorem describe_snd (position : Position) (cache : CellCache) :
    (position.describe cache).2 = (boardSquares cache.size).foldl handOut cache := by
  rw [boardSquares, List.foldl_flatMap]
  refine (mapM_snd _ _ _).trans ?_
  congr
  funext cache row
  rw [Placement.rowSquares, List.foldl_map]
  exact mapM_snd _ _ _

theorem serve_eq_foldl (h : cache.size = size) (request : Request) :
    cache.serve request = (request.squares size).foldl handOut cache := by
  cases request with
  | cell square => rfl
  | picture position =>
      rw [← h]
      exact describe_snd position cache

/-! ## Contents -/

/-- The cache is one for boards of the given size, and holds the cells of these squares. -/
structure Holds (size : Nat) (squares : List Square) (cache : CellCache) : Prop where
  serves : cache.Serves size
  mem_iff : ∀ square, square ∈ cache.cells ↔ square ∈ squares

theorem mem_handOut (cache : CellCache) (square other : Square) :
    other ∈ (cache.handOut square).cells ↔ other ∈ cache.cells ∨ other = square := by
  rw [handOut, get_apply]
  cases hknown : cache.cells[square]? with
  | some cell =>
      have hmem : square ∈ cache.cells := Std.HashMap.mem_iff_isSome_getElem?.mpr (by simp [hknown])
      constructor
      · exact .inl
      · rintro (h | rfl)
        · exact h
        · exact hmem
  | none =>
      simp only [Std.HashMap.mem_insert, beq_iff_eq]
      tauto

namespace Holds

theorem new (size : Nat) : (CellCache.new size).Holds size [] :=
  ⟨serves_new size, by simp [CellCache.new]⟩

theorem handOut (h : cache.Holds size squares) (square : Square) :
    (cache.handOut square).Holds size (squares ++ [square]) := by
  refine ⟨h.serves.get_snd _ _, ?_⟩
  intro other
  rw [mem_handOut, h.mem_iff, List.mem_append, List.mem_singleton]

theorem foldl_handOut (h : cache.Holds size squares) (more : List Square) :
    (more.foldl CellCache.handOut cache).Holds size (squares ++ more) := by
  induction more generalizing cache squares with
  | nil => rwa [List.append_nil]
  | cons square more ih =>
      have hrest := ih (h.handOut square)
      rwa [List.append_assoc] at hrest

theorem foldl_serve (h : cache.Holds size squares) (requests : List Request) :
    (requests.foldl serve cache).Holds size (squares ++ requests.flatMap (·.squares size)) := by
  induction requests generalizing cache squares with
  | nil => rwa [List.flatMap_nil, List.append_nil]
  | cons request requests ih =>
      have hserved := h.foldl_handOut (request.squares size)
      rw [← serve_eq_foldl h.serves.size_eq] at hserved
      have hrest := ih hserved
      rwa [List.append_assoc] at hrest

/-- No cell is kept twice. -/
theorem count_eq (h : cache.Holds size squares) : cache.count = squares.toFinset.card := by
  have hkeys : cache.cells.keys.toFinset = squares.toFinset := by
    ext square
    rw [List.mem_toFinset, List.mem_toFinset, Std.HashMap.mem_keys, h.mem_iff]
  rw [← hkeys, List.toFinset_card_of_nodup Std.HashMap.nodup_keys, Std.HashMap.length_keys]
  rfl

theorem isEmpty_iff (h : cache.Holds size squares) : cache.isEmpty = true ↔ squares = [] := by
  rw [isEmpty, Std.HashMap.isEmpty_iff_forall_not_mem, List.eq_nil_iff_forall_not_mem]
  simp only [h.mem_iff]

end Holds

end QueensPuzzle.CellCache
