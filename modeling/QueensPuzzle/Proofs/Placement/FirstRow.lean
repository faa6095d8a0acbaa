import Mathlib.Algebra.BigOperators.Intervals
import Mathlib.Tactic.Ring
import QueensPuzzle.Proofs.Placement.Growth
import QueensPuzzle.Proofs.Search.FirstSolution
import QueensPuzzle.Proofs.Search.Selection

/-! # The first queen

A queen on the first row takes the same number of squares from an empty board in every column: what
one of its diagonals loses towards an edge the other gains. So the number of open squares does not
tell the first queens apart. The depth-first search, whose sorting is stable, keeps them in the
order of their columns; the best-first search, which of equal priorities takes the latest discovery,
begins at the other end.
-/

namespace QueensPuzzle.Placement

open Finset Search

variable {size row column : Nat}

/-! ## Counting row by row -/

/-- How many squares of a row a queen on the first row leaves open. -/
def openInRow (size column row : Nat) : Nat :=
  (rowSquares size row).countP fun other => !(⟨0, column⟩ : Square).attacks other

theorem openCount_place_empty (size column : Nat) :
    ((empty size).place ⟨0, column⟩).openCount = ∑ row ∈ range size, openInRow size column row := by
  rw [openCount, place, empty, ← Array.length_toList, Array.toList_filter,
    ← List.countP_eq_length_filter, List.countP_flatMap]
  rfl

theorem countP_rowSquares (size row : Nat) (p : Square → Bool) :
    (rowSquares size row).countP p = ∑ column ∈ range size, if p ⟨row, column⟩ then 1 else 0 := by
  rw [rowSquares, List.countP_map]
  induction size with
  | zero => rfl
  | succ size ih =>
      rw [List.range_succ, List.countP_append, ih, sum_range_succ, List.countP_singleton]
      rfl

theorem openInRow_zero (size column : Nat) : openInRow size column 0 = 0 := by
  rw [openInRow, List.countP_eq_zero]
  intro other hother
  have hrow : (⟨0, column⟩ : Square).attacks other = true :=
    Square.attacks_of_row_eq (mem_rowSquares.mp hother).1.symm
  simp [hrow]

/-- A row below the queen loses the column of the queen, and a square to each diagonal that still is
on the board. These are different squares. -/
theorem openInRow_succ_add (hcolumn : column < size) :
    openInRow size column (row + 1) + (1 + (if row < column then 1 else 0) +
      if row < size - 1 - column then 1 else 0) = size := by
  have hsquare : ∀ other, (if (!(⟨0, column⟩ : Square).attacks ⟨row + 1, other⟩) = true
      then 1 else 0) + ((if column = other then 1 else 0) +
        (if row < column then if column - (row + 1) = other then 1 else 0 else 0) +
        if column + (row + 1) = other then 1 else 0) = 1 := by
    intro other
    simp only [Bool.not_eq_true', Square.attacks_eq_false_iff]
    split_ifs <;> omega
  have hleft : (∑ other ∈ range size,
      if row < column then if column - (row + 1) = other then 1 else 0 else 0) =
        if row < column then 1 else 0 := by
    by_cases hrow : row < column
    · simp only [if_pos hrow, sum_ite_eq, mem_range]
      rw [if_pos (by omega)]
    · simp only [if_neg hrow, sum_const_zero]
  have hright : (∑ other ∈ range size, if column + (row + 1) = other then 1 else 0) =
      if row < size - 1 - column then 1 else 0 := by
    simp only [sum_ite_eq, mem_range]
    split_ifs <;> omega
  have hbelow : (∑ other ∈ range size, if column = other then 1 else 0) = 1 := by
    simp only [sum_ite_eq, mem_range, if_pos hcolumn]
  have hsum := sum_congr (rfl : range size = range size) fun other _ => hsquare other
  simp only [sum_add_distrib, hleft, hright, hbelow] at hsum
  rw [openInRow, countP_rowSquares]
  simpa using hsum

theorem sum_range_lt {bound count : Nat} (h : count ≤ bound) :
    (∑ i ∈ range bound, if i < count then 1 else 0) = count := by
  have hfilter : (range bound).filter (· < count) = range count := by
    ext i
    simp only [mem_filter, mem_range]
    omega
  rw [← sum_filter, hfilter, ← card_eq_sum_ones, card_range]

/-- The two diagonals of a square on the first row leave the board at its left and at its right, so
together they have `size - 1` squares below it. -/
theorem openCount_place_first_row (hcolumn : column < size) :
    ((empty size).place ⟨0, column⟩).openCount = (size - 1) * (size - 2) := by
  obtain ⟨rows, rfl⟩ : ∃ rows, size = rows + 1 := ⟨size - 1, by omega⟩
  have hrow : ∀ row ∈ range rows, openInRow (rows + 1) column (row + 1) +
      (1 + (if row < column then 1 else 0) + if row < rows - column then 1 else 0) = rows + 1 :=
    fun row _ => openInRow_succ_add hcolumn
  have hrows := sum_const_nat hrow
  rw [sum_add_distrib, sum_add_distrib, sum_add_distrib, ← card_eq_sum_ones, card_range,
    sum_range_lt (by omega), sum_range_lt (by omega)] at hrows
  rw [openCount_place_empty, sum_range_succ', openInRow_zero]
  cases rows with
  | zero => rfl
  | succ rows =>
      have hproduct : (rows + 1) * (rows + 1 + 1) = (rows + 1) * rows + (rows + 1) * 2 :=
        Nat.mul_add (rows + 1) rows 2
      change _ = (rows + 1) * rows
      omega

/-! ## The first successors -/

theorem successors_empty (size : Nat) :
    (empty size).successors =
      (List.range size).map fun column => (empty size).place ⟨0, column⟩ := by
  have hempty : Legal size (empty size) := .empty
  have hopen : ∀ column ∈ List.range size, decide ((⟨0, column⟩ : Square) ∈
      (empty size).openSquares) = true := by
    intro column hcolumn
    rw [List.mem_range] at hcolumn
    rw [decide_eq_true_eq, mem_openSquares_empty]
    exact ⟨Nat.zero_lt_of_lt hcolumn, hcolumn⟩
  have hsuccessors := hempty.successors_eq
  change _ = ((List.range size).filter fun column => decide ((⟨0, column⟩ : Square) ∈
      (empty size).openSquares)).map _ at hsuccessors
  rw [List.filter_eq_self.mpr hopen] at hsuccessors
  exact hsuccessors

theorem openCount_of_mem_successors_empty {next : Placement} (h : next ∈ (empty size).successors) :
    next.openCount = (size - 1) * (size - 2) := by
  rw [successors_empty, List.mem_map] at h
  obtain ⟨column, hcolumn, rfl⟩ := h
  exact openCount_place_first_row (List.mem_range.mp hcolumn)

/-- Where all successors leave equally many squares open, sorting leaves them as they are. -/
theorem sortedSuccessors_empty (size : Nat) :
    (empty size).sortedSuccessors = (empty size).successors := by
  apply List.mergeSort_of_pairwise
  apply List.pairwise_of_forall_mem_list
  intro a ha b hb
  rw [openCount_of_mem_successors_empty ha, openCount_of_mem_successors_empty hb]
  exact decide_eq_true (Nat.le_refl _)

theorem isComplete_empty (hsize : 1 ≤ size) : (empty size).isComplete = false := by
  rw [isComplete, beq_eq_false_iff_ne]
  change 0 ≠ size
  omega

/-! ## Depth first -/

theorem exists_preorder_empty (hsize : 1 ≤ size) :
    ∃ behind, tree.preorder (empty size).height (empty size) =
      empty size :: (empty size).place ⟨0, 0⟩ :: behind := by
  obtain ⟨rows, rfl⟩ : ∃ rows, size = rows + 1 := ⟨size - 1, by omega⟩
  have hbranches : tree.branches (empty (rows + 1)) =
      (List.range (rows + 1)).map fun column => (empty (rows + 1)).place ⟨0, column⟩ := by
    rw [← successors_empty, ← sortedSuccessors_empty]
    rfl
  change ∃ behind, tree.preorder (rows + 1 + 1) (empty (rows + 1)) = _
  rw [SearchTree.preorder, hbranches, List.range_succ_eq_map, List.map_cons, List.flatMap_cons,
    SearchTree.preorder]
  exact ⟨_, rfl⟩

theorem queries_empty (hsize : 1 ≤ size) :
    [.isSolution (empty size), .branches (empty size), .isSolution ((empty size).place ⟨0, 0⟩)] <+:
      tree.queries (empty size).height (empty size) := by
  obtain ⟨behind, hpreorder⟩ := exists_preorder_empty hsize
  have hroot : tree.isSolution (empty size) = false := isComplete_empty hsize
  rw [SearchTree.queries_eq, hpreorder]
  cases hfirst : tree.isSolution ((empty size).place ⟨0, 0⟩) <;>
    simp [SearchTree.questions, SearchTree.untilSolution, hroot, hfirst]

theorem exists_advance_empty (hsize : 1 ≤ size) :
    ∃ next, (empty size).walk.advance tree = .ok next ∧
      next.candidate = some ((empty size).place ⟨0, 0⟩) := by
  obtain ⟨behind, hpreorder⟩ := exists_preorder_empty hsize
  have hdepth : 1 < (empty size).height := Nat.succ_lt_succ hsize
  obtain ⟨next, hnext⟩ := (SearchTree.exists_advance_iff tree _).mpr (isFinal_walk hsize)
  have hafter : tree.walkAfter (empty size) 1 = .ok next :=
    SearchTree.walkAfter_succ_eq_ok_iff.mpr ⟨_, SearchTree.walkAfter_zero, hnext⟩
  refine ⟨next, hnext, ?_⟩
  rw [SearchTree.candidate_walkAfter hafter hdepth, hpreorder]
  rfl

/-- Only on one row is the first placement that is tried a solution. -/
theorem endsAfter_one_iff (hsize : 1 ≤ size) : tree.EndsAfter (empty size) 1 ↔ size = 1 := by
  obtain ⟨next, hnext, hcandidate⟩ := exists_advance_empty hsize
  have hafter : tree.walkAfter (empty size) 1 = .ok next :=
    SearchTree.walkAfter_succ_eq_ok_iff.mpr ⟨_, SearchTree.walkAfter_zero, hnext⟩
  have hfinal : next.isFinal = ((empty size).place ⟨0, 0⟩).isComplete := by
    rw [SearchTree.isFinal_walkAfter hafter, hcandidate]
    rfl
  have hcomplete : ((empty size).place ⟨0, 0⟩).isComplete = true ↔ size = 1 := by
    rw [isComplete, beq_iff_eq]
    exact eq_comm
  rw [← hcomplete, ← hfinal]
  constructor
  · intro hends
    exact (hends.isFinal_iff hafter).mpr rfl
  · intro hover
    exact ⟨next, hafter, hover⟩

/-! ## Best first -/

/-- What the search knows of a placement with a queen on the first row when it has taken it in. -/
def firstRecord (size column : Nat) : Record Placement Int where
  node := (empty size).place ⟨0, column⟩
  closed := false
  cost := -((size - 1) * (size - 2) : Nat)
  priority := -(2 * ((size - 1) * (size - 2)) : Nat)
  previous := some 0
  stamp := column + 1

theorem offer_first (hcolumn : column < size) (root : Record Placement Int)
    (hcost : root.cost = 0) :
    Exploration.offer graph 0 root column ((empty size).place ⟨0, column⟩) =
      firstRecord size column := by
  simp only [Exploration.offer, graph, firstRecord, openCount_place_first_row hcolumn, hcost]
  congr 1 <;> push_cast <;> ring

theorem exists_step_start (hsize : 1 ≤ size) :
    ∃ x, (Exploration.start graph (empty size)).step graph = .expanded x ∧
      x.tests = #[empty size] ∧ x.records.toList =
        ⟨empty size, true, 0, -(empty size).openCount, none, 0⟩ ::
          (List.range size).map (firstRecord size) := by
  have hempty : Legal size (empty size) := .empty
  have hafter : Exploration.After graph (empty size) 0 _ := .start
  rcases Exploration.step_cases graph (Exploration.start graph (empty size)) with
    ⟨hnone, _⟩ | ⟨slot, record, rest, _, hrecord, hopen, hend⟩
  · rw [Queue.popAccepted_eq_none_iff] at hnone
    have hentry := hnone _ (hafter.covering.live.queued 0 _ rfl rfl)
    rw [Exploration.current_entry rfl rfl] at hentry
    cases hentry
  · obtain ⟨rfl, rfl⟩ : slot = 0 ∧
        record = ⟨empty size, false, 0, -(empty size).openCount, none, 0⟩ := by
      cases slot with
      | zero => exact ⟨rfl, (Option.some.inj hrecord).symm⟩
      | succ slot => cases hrecord
    have hroot : graph.isGoal (empty size) = false := isComplete_empty hsize
    rcases hend with ⟨hgoal, _⟩ | ⟨_, hstep⟩
    · rw [hroot] at hgoal
      cases hgoal
    · refine ⟨_, hstep, Exploration.tests_expand_select _ _ _ _ _, ?_⟩
      rw [hafter.records_expand hempty.isTree hrecord hopen rest]
      change _ :: (empty size).successors.mapIdx _ = _
      rw [successors_empty]
      apply congrArg (List.cons _)
      apply List.ext_getElem
      · simp
      · intro column hcolumn _
        simp only [List.length_mapIdx, List.length_map, List.length_range] at hcolumn
        simp only [List.getElem_mapIdx, List.getElem_map, List.getElem_range]
        have hstamp : (Exploration.start graph (empty size)).stamp + column = column :=
          Nat.zero_add column
        rw [hstamp]
        exact offer_first hcolumn _ rfl

/-- Among equal priorities the latest discovery comes first, and that is the last column. -/
theorem popAccepted_after_root (hsize : 1 ≤ size) {x : Exploration Placement (List Square) Int}
    (hstep : (Exploration.start graph (empty size)).step graph = .expanded x)
    (hrecords : x.records.toList = ⟨empty size, true, 0, -(empty size).openCount, none, 0⟩ ::
      (List.range size).map (firstRecord size)) :
    ∃ rest, x.queue.popAccepted Entry.before (Exploration.current x.records) =
      some ((size, firstRecord size (size - 1)), rest) := by
  have hscheduled := (Exploration.scheduled_start graph (empty size)).step hstep
  have hchild : ∀ column < size, x.records[column + 1]? = some (firstRecord size column) := by
    intro column hcolumn
    rw [← Array.getElem?_toList, hrecords]
    simp [hcolumn]
  have hlast := hchild (size - 1) (by omega)
  rcases Exploration.step_cases graph x with
    ⟨hnone, _⟩ | ⟨slot, record, rest, hpop, hrecord, hopen, _⟩
  · rw [Queue.popAccepted_eq_none_iff] at hnone
    have hentry := hnone _ (hscheduled.live.queued _ _ hlast rfl)
    rw [Exploration.current_entry hlast rfl] at hentry
    cases hentry
  · refine ⟨rest, ?_⟩
    rw [← Array.getElem?_toList, hrecords] at hrecord
    cases slot with
    | zero =>
        cases hrecord
        cases hopen
    | succ column =>
        have hcolumn : column < size := by
          simpa using (List.getElem?_eq_some_iff.mp hrecord).choose
        obtain rfl : firstRecord size column = record := by simpa [hcolumn] using hrecord
        have hstamp := hscheduled.stamp_le_of_open hpop hlast rfl rfl
        change size - 1 + 1 ≤ column + 1 at hstamp
        obtain rfl : column = size - 1 := by omega
        rw [hpop]
        congr 3
        omega

theorem tested_explore_empty (hsize : 1 ≤ size) :
    [empty size, (empty size).place ⟨0, size - 1⟩] <+: (empty size).explore.tested := by
  obtain ⟨x, hstep, htests, hrecords⟩ := exists_step_start hsize
  obtain ⟨rest, hpop⟩ := popAccepted_after_root hsize hstep hrecords
  have hrun : (empty size).explore = graph.run ((size + 1) ^ size) x := by
    change graph.run ((size + 1) ^ size + 1) _ = _
    rw [CostGraph.run, hstep]
  have hlimit : 0 < (size + 1) ^ size := Nat.pow_pos (Nat.succ_pos size)
  have htested : (x.tests.push (firstRecord size (size - 1)).node).toList =
      [empty size, (empty size).place ⟨0, size - 1⟩] := by
    rw [htests]
    rfl
  rw [hrun, ← htested]
  exact CostGraph.tests_push_isPrefix_run hpop hlimit

/-- A queen on the first row of an empty board leaves the same number of squares open, whatever its
column. So the depth-first engine tries the columns in their order, and the best-first engine gives
the successors of the empty board one priority and closes the one of the last column next. -/
theorem first_row_symmetric (size : Nat) :
    let root := empty size
    let first (column : Nat) := root.place ⟨0, column⟩
    (∀ column < size, (first column).openCount = (size - 1) * (size - 2)) ∧
    root.successors = (List.range size).map first ∧
    root.sortedSuccessors = root.successors ∧
    (1 ≤ size →
      [.isSolution root, .branches root, .isSolution (first 0)] <+:
        tree.queries root.height root ∧
      (∃ next, root.walk.advance tree = .ok next ∧ next.candidate = some (first 0)) ∧
      (∃ x rest, (Exploration.start graph root).step graph = .expanded x ∧
        x.records.toList = ⟨root, true, 0, -root.openCount, none, 0⟩ ::
          (List.range size).map (firstRecord size) ∧
        (∀ column < size, (firstRecord size column).node = first column ∧
          (firstRecord size column).priority = -(2 * ((size - 1) * (size - 2)) : Nat)) ∧
        x.queue.popAccepted Entry.before (Exploration.current x.records) =
          some ((size, firstRecord size (size - 1)), rest)) ∧
      [root, first (size - 1)] <+: root.explore.tested) := by
  intro root first
  refine ⟨fun _ => openCount_place_first_row, successors_empty size,
    sortedSuccessors_empty size, ?_⟩
  intro hsize
  obtain ⟨x, hstep, _, hrecords⟩ := exists_step_start hsize
  obtain ⟨rest, hpop⟩ := popAccepted_after_root hsize hstep hrecords
  exact ⟨queries_empty hsize, exists_advance_empty hsize,
    ⟨x, rest, hstep, hrecords, fun _ _ => ⟨rfl, rfl⟩, hpop⟩, tested_explore_empty hsize⟩

/-- On six rows every first queen leaves twenty squares open. -/
theorem six_rows_first_row :
    (∀ column < 6, ((empty 6).place ⟨0, column⟩).openCount = 20) ∧
      (empty 6).sortedSuccessors = (empty 6).successors ∧
      (∃ next, (empty 6).walk.advance tree = .ok next ∧
        next.candidate = some ((empty 6).place ⟨0, 0⟩)) ∧
      [empty 6, (empty 6).place ⟨0, 5⟩] <+: (empty 6).explore.tested := by
  obtain ⟨hopen, _, hsorted, hrows⟩ := first_row_symmetric 6
  obtain ⟨_, hwalk, _, htested⟩ := hrows (by decide)
  exact ⟨hopen, hsorted, hwalk, htested⟩

end QueensPuzzle.Placement
