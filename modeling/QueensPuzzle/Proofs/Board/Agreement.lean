import QueensPuzzle.Proofs.Board.Occupancy

/-! # One rule, told three times

Whether queens may stand together is told by a placement, which strikes out the squares that a
new queen attacks, by a check of all pairs, and by a position, which compares the indices of
cells. On a board they tell the same, square by square, and so does what they show of every
square once the queens stand.
-/

namespace QueensPuzzle

variable {size : Nat} {placement : Placement} {squares placed : List Square} {square : Square}

theorem peaceful_iff_conflictFree (hsize : size ≤ UInt64.size / 2) :
    Peaceful size squares ↔
      (∀ queen ∈ squares, queen.row < size ∧ queen.column < size) ∧
        Square.conflictFree squares = true := by
  constructor
  · intro h
    exact ⟨h.on_board, h.conflictFree hsize⟩
  · rintro ⟨hboard, hfree⟩
    refine ⟨hboard, ?_⟩
    refine ((Square.conflictFree_iff squares).mp hfree).imp_of_mem ?_
    intro a b ha hb hab
    rw [← Square.conflictsWith_eq_attacks hsize (hboard a ha) (hboard b hb)]
    exact hab

namespace Placement

/-- Whether each of the squares is open when its turn comes to take a queen. -/
def Takes : Placement → List Square → Prop
  | _, [] => True
  | placement, square :: rest =>
      square ∈ placement.openSquares ∧ (placement.place square).Takes rest

theorem Legal.takes_iff (h : Legal size placement) :
    placement.Takes squares ↔ Peaceful size (placement.queens ++ squares) := by
  induction squares generalizing placement with
  | nil => simpa [Takes] using h.peaceful
  | cons square rest ih =>
      rw [Takes, List.append_cons, ← queens_place]
      constructor
      · rintro ⟨hopen, htakes⟩
        exact (ih (h.place hopen)).mp htakes
      · intro hpeace
        have hopen := h.mem_openSquares_iff.mpr (Peaceful.of_append hpeace)
        exact ⟨hopen, (ih (h.place hopen)).mpr hpeace⟩

theorem Legal.extend (h : Legal size placement) (htakes : placement.Takes squares) :
    Legal size (placement.extend squares) := by
  induction squares generalizing placement with
  | nil => exact h
  | cons square rest ih => exact ih (h.place htakes.1) htakes.2

/-- What stays open is in no conflict with any of the new queens. -/
theorem Legal.openSquares_extend (hsize : size ≤ UInt64.size / 2) (h : Legal size placement)
    (htakes : placement.Takes squares) :
    (placement.extend squares).openSquares =
      placement.openSquares.filter fun other =>
        squares.all fun queen => !queen.conflictsWith other := by
  induction squares generalizing placement with
  | nil => exact (Array.filter_eq_self.mpr (by simp)).symm
  | cons square rest ih =>
      have hrest := ih (h.place htakes.1) htakes.2
      rw [h.openSquares_place hsize htakes.1, Array.filter_filter] at hrest
      simp only [List.all_cons, Bool.and_comm (!square.conflictsWith _)]
      exact hrest

end Placement

namespace Position

/-- Toggles the cells of the squares in turn, and gives what was on each before. -/
def toggleEach (size : Nat) : List Square → Position → List Occupancy × Position
  | [], position => ([], position)
  | square :: rest, position =>
      let (before, next) := position.toggle (.of square.row square.column size)
      let (befores, last) := toggleEach size rest next
      (before :: befores, last)

/-- An empty cell takes its queen, so the next one is toggled with one queen more. -/
theorem toggleEach_cons_of_empty {rest : List Square}
    (hempty : (ofSquares placed size).occupancy (.of square.row square.column size) = .empty) :
    toggleEach size (square :: rest) (ofSquares placed size) =
      let (befores, last) := toggleEach size rest (ofSquares (placed ++ [square]) size)
      (.empty :: befores, last) := by
  have hnext := toggle_ofSquares placed square size
  simp only [hempty, toggled] at hnext
  rw [toggleEach, ← hnext, ← hempty]
  rfl

theorem toggleEach_empty_iff (hsize : size < UInt64.size / 2) (h : Peaceful size placed)
    (hsquares : ∀ queen ∈ squares, queen.row < size ∧ queen.column < size) :
    (∀ before ∈ (toggleEach size squares (ofSquares placed size)).1, before = .empty) ↔
      Peaceful size (placed ++ squares) := by
  induction squares generalizing placed with
  | nil => simpa [toggleEach] using h
  | cons square rest ih =>
      rw [List.forall_mem_cons] at hsquares
      have hopen : (ofSquares placed size).occupancy (.of square.row square.column size) = .empty ↔
          Peaceful size (placed ++ [square]) := by
        rw [occupancy_ofSquares_eq_empty_iff hsize h.on_board hsquares.1, Peaceful.concat_iff]
        simp [h, hsquares.1]
      rw [List.append_cons]
      constructor
      · intro hall
        have hempty : (ofSquares placed size).occupancy _ = .empty := hall _ List.mem_cons_self
        rw [toggleEach_cons_of_empty hempty, List.forall_mem_cons] at hall
        exact (ih (hopen.mp hempty) hsquares.2).mp hall.2
      · intro hpeace
        have hplaced := hpeace.of_append
        rw [toggleEach_cons_of_empty (hopen.mpr hplaced), List.forall_mem_cons]
        exact ⟨rfl, (ih hplaced hsquares.2).mpr hpeace⟩

theorem toggleEach_snd (hall : ∀ before ∈ (toggleEach size squares (ofSquares placed size)).1,
    before = .empty) :
    (toggleEach size squares (ofSquares placed size)).2 = ofSquares (placed ++ squares) size := by
  induction squares generalizing placed with
  | nil => rw [List.append_nil, toggleEach]
  | cons square rest ih =>
      have hempty : (ofSquares placed size).occupancy _ = .empty := hall _ List.mem_cons_self
      rw [toggleEach_cons_of_empty hempty] at hall ⊢
      have hrest := ih fun before hbefore => hall before (List.mem_cons_of_mem _ hbefore)
      rw [List.append_assoc] at hrest
      exact hrest

end Position

/-- Three ways to say that queens may be put on the squares in turn: each square is open when its
turn comes, all are on the board and no two are in conflict, each toggle finds an empty cell. Where
the queens may stand, a cell shows a queen exactly on the squares, is empty exactly if its square
is still open, and is blocked otherwise. Three times the size has to be a signed word, so that the
indices of the cells are. -/
theorem placing_checking_toggling_agree (hsize : 3 * size < UInt64.size / 2)
    (squares : List Square) :
    let onBoard := ∀ square ∈ squares, square.row < size ∧ square.column < size
    let toggled := Position.empty.toggleEach size squares
    let last := (Placement.empty size).extend squares
    ((Placement.empty size).Takes squares ↔ onBoard ∧ Square.conflictFree squares = true) ∧
    ((Placement.empty size).Takes squares ↔ onBoard ∧ ∀ before ∈ toggled.1, before = .empty) ∧
    ((Placement.empty size).Takes squares →
      last.queens = squares ∧ toggled.2 = .ofSquares squares size ∧
      last.openSquares = (Placement.empty size).openSquares.filter
        (fun square => squares.all fun queen => !queen.conflictsWith square) ∧
      ∀ square : Square, square.row < size ∧ square.column < size →
        let shown := toggled.2.occupancy (.of square.row square.column size)
        (shown = .queen ↔ square ∈ squares) ∧ (shown = .empty ↔ square ∈ last.openSquares) ∧
          (shown = .blocked ↔ square ∉ squares ∧ square ∉ last.openSquares)) := by
  have hword : size < UInt64.size / 2 := by omega
  have hstart : Placement.Legal size (.empty size) := .empty
  have htakes : (Placement.empty size).Takes squares ↔ Peaceful size squares := hstart.takes_iff
  have htoggles (hboard : ∀ square ∈ squares, square.row < size ∧ square.column < size) :
      (∀ before ∈ (Position.empty.toggleEach size squares).1, before = .empty) ↔
        Peaceful size squares :=
    Position.toggleEach_empty_iff hword (Peaceful.nil size) hboard
  intro onBoard toggled last
  refine ⟨?_, ?_, ?_⟩
  · rw [htakes]
    exact peaceful_iff_conflictFree (Nat.le_of_lt hword)
  · rw [htakes]
    constructor
    · intro hpeace
      exact ⟨hpeace.on_board, (htoggles hpeace.on_board).mpr hpeace⟩
    · rintro ⟨hboard, hall⟩
      exact (htoggles hboard).mp hall
  · intro h
    have hpeace := htakes.mp h
    have hlast : toggled.2 = .ofSquares squares size := by
      change (Position.toggleEach size squares (.ofSquares [] size)).2 = .ofSquares ([] ++ squares) size
      exact Position.toggleEach_snd ((htoggles hpeace.on_board).mpr hpeace)
    refine ⟨Placement.queens_extend _ _, hlast,
      hstart.openSquares_extend (Nat.le_of_lt hword) h, ?_⟩
    intro square hsquare shown
    have hqueen : shown = .queen ↔ square ∈ squares := by
      simp only [shown, hlast]
      exact Position.occupancy_ofSquares_eq_queen_iff
    have hempty : shown = .empty ↔ square ∈ last.openSquares := by
      simp only [shown, hlast]
      rw [Position.occupancy_ofSquares_eq_empty_iff hword hpeace.on_board hsquare,
        (hstart.extend h).mem_openSquares, Placement.queens_extend]
      exact (and_iff_right hsquare).symm
    refine ⟨hqueen, hempty, ?_⟩
    rw [← hqueen, ← hempty]
    exact Position.occupancy_eq_blocked_iff _ _

/-- The second queen attacks a square of the third row along the rising diagonal alone. -/
theorem two_queens_agree :
    let squares : List Square := [⟨0, 1⟩, ⟨1, 3⟩]
    let toggled := Position.empty.toggleEach 4 squares
    (Placement.empty 4).Takes squares ∧ (∀ before ∈ toggled.1, before = .empty) ∧
      toggled.2.occupancy (.of 2 0 4) = .empty ∧ toggled.2.occupancy (.of 2 2 4) = .blocked := by
  intro squares toggled
  obtain ⟨hchecked, htoggled, hshown⟩ :=
    placing_checking_toggling_agree (show 3 * 4 < UInt64.size / 2 by decide) squares
  have htakes := hchecked.mpr ⟨by decide, by decide⟩
  obtain ⟨_, _, hopen, hcells⟩ := hshown htakes
  simp only [hopen, Array.mem_filter, Placement.mem_openSquares_empty] at hcells
  obtain ⟨_, hempty, _⟩ := hcells ⟨2, 0⟩ (by decide)
  obtain ⟨_, _, hblocked⟩ := hcells ⟨2, 2⟩ (by decide)
  exact ⟨htakes, (htoggled.mp htakes).2, hempty.mpr (by decide), hblocked.mpr (by decide)⟩

end QueensPuzzle
