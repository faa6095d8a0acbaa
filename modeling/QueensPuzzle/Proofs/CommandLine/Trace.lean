import QueensPuzzle.CommandLine.Report
import QueensPuzzle.Proofs.Placement.Candidates

/-! # What a trace prints

Without a limit a trace has one line for each step, from the empty board to the end of the search,
and one for how the search came out. A limit cuts the lines of the steps off and changes nothing in
those that are left. The end of the search is noticed before another advance is asked for, so no
trace breaks off with a fault.
-/

namespace QueensPuzzle.CommandLine

open Search Placement

variable {size total count reach : Nat} {limit : Option Nat}
  {walk next : Walk Placement}

/-- The search on a board after so many advances, or its end. -/
def walkAt (size count : Nat) : Walk Placement := (Placement.empty size).walk.run tree count

theorem walkAt_eq (h : tree.walkAfter (Placement.empty size) count = .ok walk) :
    walkAt size count = walk :=
  SearchTree.run_walkAfter h 0

/-- How many steps are shown, where the last one has the number `total`. -/
def shownSteps (limit : Option Nat) (total : Nat) : Nat := limit.elim (total + 1) (min (total + 1))

/-- The line behind those of the steps. -/
def lastLine (limit : Option Nat) (last : Walk Placement) : String :=
  match limit with
  | none => outcomeLine last
  | some limit =>
      if limit ≤ last.advances then s!"stopped after {limit} steps" else outcomeLine last

theorem lt_shownSteps (hle : count ≤ total) (hlimit : ∀ bound ∈ limit, count < bound) :
    count < shownSteps limit total := by
  cases limit with
  | none => exact Nat.lt_succ_of_le hle
  | some bound => exact Nat.lt_min.mpr ⟨Nat.lt_succ_of_le hle, hlimit bound rfl⟩

theorem shownSteps_eq (hlimit : ∀ bound ∈ limit, total < bound) :
    shownSteps limit total = total + 1 := by
  cases limit with
  | none => rfl
  | some bound => exact Nat.min_eq_left (hlimit bound rfl)

theorem lastLine_eq {last : Walk Placement} (hlimit : ∀ bound ∈ limit, last.advances < bound) :
    lastLine limit last = outcomeLine last := by
  cases limit with
  | none => rfl
  | some bound => exact if_neg (Nat.not_le.mpr (hlimit bound rfl))

/-! ## One turn -/

theorem traceFrom_of_stop (hstop : limit.any (· ≤ walk.advances) = true) :
    traceFrom limit (reach + 1) walk = ⟨[stoppedLine walk], [], none⟩ := by
  rw [traceFrom, if_pos hstop]

theorem traceFrom_of_isFinal (hgo : limit.any (· ≤ walk.advances) = false)
    (hfinal : walk.isFinal = true) :
    traceFrom limit (reach + 1) walk = ⟨[stepLine walk, outcomeLine walk], [], none⟩ := by
  rw [traceFrom, if_neg (ne_true_of_eq_false hgo), if_pos hfinal]

theorem traceFrom_of_advance (hgo : limit.any (· ≤ walk.advances) = false)
    (hadvance : walk.advance tree = .ok next) :
    traceFrom limit (reach + 1) walk =
      ⟨stepLine walk :: (traceFrom limit reach next).lines,
        next.event :: (traceFrom limit reach next).events, (traceFrom limit reach next).fault⟩ := by
  have hfinal := (SearchTree.exists_advance_iff tree walk).mp ⟨next, hadvance⟩
  rw [traceFrom, if_neg (ne_true_of_eq_false hgo), if_neg (ne_true_of_eq_false hfinal)]
  simp only [hadvance]

/-! ## All turns -/

/-- A trace from one of the steps on shows the steps from there. -/
theorem traceFrom_spec (hends : tree.EndsAfter (Placement.empty size) total)
    (hwalk : tree.walkAfter (Placement.empty size) count = .ok walk)
    (hreach : total < count + reach) (hlimit : ∀ bound ∈ limit, count ≤ bound) :
    (traceFrom limit reach walk).lines =
      (List.range' count (shownSteps limit total - count)).map (stepLine <| walkAt size ·) ++
        [lastLine limit (walkAt size total)] ∧
    (traceFrom limit reach walk).fault = none := by
  obtain ⟨last, hlast, _⟩ := id hends
  have htotal := SearchTree.advances_walkAfter hlast
  rw [walkAt_eq hlast]
  induction reach generalizing count walk with
  | zero =>
      have hle := hends.le hwalk
      omega
  | succ reach ih =>
      have hle := hends.le hwalk
      have hadvances := SearchTree.advances_walkAfter hwalk
      cases hstop : limit.any (· ≤ walk.advances) with
      | true =>
          -- The limit was not passed so far, so the step has its number.
          have hbound : limit = some count := by
            rw [hadvances] at hstop
            cases limit with
            | none => cases hstop
            | some bound =>
                have hpassed : bound ≤ count := by simpa using hstop
                rw [Nat.le_antisymm hpassed (hlimit bound rfl)]
          rw [traceFrom_of_stop hstop, hbound, stoppedLine, hadvances]
          simp [shownSteps, lastLine, htotal, hle]
      | false =>
          have hmore : ∀ bound ∈ limit, count < bound := by
            rintro bound rfl
            simpa [hadvances] using hstop
          cases hfinal : walk.isFinal with
          | true =>
              obtain rfl := (hends.isFinal_iff hwalk).mp hfinal
              obtain rfl : walk = last := Except.ok.inj (hwalk.symm.trans hlast)
              rw [traceFrom_of_isFinal hstop hfinal, shownSteps_eq hmore,
                lastLine_eq (by rwa [htotal]), Nat.add_sub_cancel_left, List.range'_one,
                List.map_singleton, walkAt_eq hwalk]
              exact ⟨rfl, rfl⟩
          | false =>
              obtain ⟨next, hadvance⟩ := (SearchTree.exists_advance_iff tree walk).mpr hfinal
              have hnext := SearchTree.walkAfter_succ_eq_ok_iff.mpr ⟨walk, hwalk, hadvance⟩
              obtain ⟨hlines, hfault⟩ := ih hnext (by omega) hmore
              have hshown := lt_shownSteps hle hmore
              have hsteps : shownSteps limit total - count =
                  shownSteps limit total - (count + 1) + 1 := by omega
              rw [traceFrom_of_advance hstop hadvance, hsteps, List.range'_succ, List.map_cons,
                walkAt_eq hwalk, List.cons_append, ← hlines]
              exact ⟨rfl, hfault⟩

/-- A trace shows the steps from the first on, and no fault. -/
theorem trace_spec (hends : tree.EndsAfter (Placement.empty size) total) (limit : Option Nat) :
    (trace size limit).lines =
      (List.range (shownSteps limit total)).map (stepLine <| walkAt size ·) ++
        [lastLine limit (walkAt size total)] ∧
    (trace size limit).fault = none := by
  obtain ⟨count, hcount, hother⟩ := exists_endsAfter_empty size
  obtain rfl := hother.unique hends
  rw [List.range_eq_range', ← Nat.sub_zero (shownSteps limit total)]
  exact traceFrom_spec hends SearchTree.walkAfter_zero (by omega) (fun _ _ => Nat.zero_le _)

/-! ## What the lines say -/

/-- A number stands at the right of six places, with blanks in those that are left over. No digit is
cut off where six places are too few. -/
theorem padded_eq (n : Nat) :
    padded n = String.ofList (List.replicate (6 - (toString n).length) ' ') ++ toString n := by
  rw [padded, String.ofList_append, Nat.toString_eq_repr, Nat.repr, String.length_ofList]

theorem stepLine_eq (walk : Walk Placement) :
    stepLine walk =
      String.ofList (List.replicate (6 - (toString walk.advances).length) ' ') ++
        toString walk.advances ++ "  " ++
        match walk.candidate with
        | some placement =>
            "[" ++ " ".intercalate (placement.queens.map (toString ·.column)) ++ "]"
        | none => "exhausted" := by
  cases hcandidate : walk.candidate with
  | some placement => simp only [stepLine, padded_eq, hcandidate]
  | none => simp only [stepLine, padded_eq, hcandidate]

/-- Nothing is shown at the end of a search only, and only if there is nothing to be found. -/
theorem candidate_eq_none_iff (hends : tree.EndsAfter (Placement.empty size) total)
    (hwalk : tree.walkAfter (Placement.empty size) count = .ok walk) :
    walk.candidate = none ↔ count = total ∧ ¬Solvable size := by
  have harises : Arises size walk := ⟨count, hwalk⟩
  rw [← hends.isFinal_iff hwalk]
  constructor
  · intro hnone
    have hfinal : walk.isFinal = true := by rw [harises.isFinal_eq, hnone]; rfl
    exact ⟨hfinal, (harises.candidate_eq_none_iff hfinal).mp hnone⟩
  · rintro ⟨hfinal, hnot⟩
    exact (harises.candidate_eq_none_iff hfinal).mpr hnot

theorem outcomeLine_of_isFinal (hwalk : tree.walkAfter (Placement.empty size) count = .ok walk)
    (hfinal : walk.isFinal = true) :
    (Solvable size → outcomeLine walk = s!"solved after {count} steps") ∧
      (¬Solvable size → outcomeLine walk = s!"no solution after {count} steps") := by
  have harises : Arises size walk := ⟨count, hwalk⟩
  have hnone := harises.candidate_eq_none_iff hfinal
  rw [outcomeLine, SearchTree.advances_walkAfter hwalk, walk.solution_eq_candidate hfinal]
  constructor
  · intro hsolvable
    have hsome : walk.candidate.isSome = true := by
      rw [Option.isSome_iff_ne_none]
      intro hnothing
      exact hnone.mp hnothing hsolvable
    rw [hsome]
    rfl
  · intro hnot
    rw [hnone.mpr hnot]
    rfl

/-- The search on a board ends after so many advances. A trace without a limit then shows every step
from number 0 to this number, each with its number, filled up to six places with blanks, and with
the columns of the queens that the search is at, or with nothing at the end of a search that found
nothing; and behind them how the search came out. A trace with a limit shows the first of these
lines, as many as the limit allows, and behind them that it stopped, or how the search came out if
the limit let all the steps pass. No trace breaks off. -/
theorem limited_trace_shows_first_steps (size : Nat) :
    ∃ total steps outcome, tree.EndsAfter (Placement.empty size) total ∧
      steps.length = total + 1 ∧
      (∀ count ≤ total,
        let blanks := String.ofList (List.replicate (6 - (toString count).length) ' ')
        ∃ walk, tree.walkAfter (Placement.empty size) count = .ok walk ∧
          (walk.candidate = none ↔ count = total ∧ ¬Solvable size) ∧
          steps[count]? = some (blanks ++ toString count ++ "  " ++
            match walk.candidate with
            | some placement =>
                "[" ++ " ".intercalate (placement.queens.map (toString ·.column)) ++ "]"
            | none => "exhausted")) ∧
      (Solvable size → outcome = s!"solved after {total} steps") ∧
      (¬Solvable size → outcome = s!"no solution after {total} steps") ∧
      (trace size none).lines = steps ++ [outcome] ∧
      (∀ limit, (trace size (some limit)).lines = steps.take (min limit (total + 1)) ++
        [if limit ≤ total then s!"stopped after {limit} steps" else outcome]) ∧
      ∀ limit, (trace size limit).fault = none ∧
        ∀ config : Config, config.boardSize.rows = size →
          (reportTrace config limit).output =
            String.join ((trace size limit).lines.map (· ++ "\n")) ∧
          (reportTrace config limit).trouble = none ∧ (reportTrace config limit).exitCode = 0 := by
  obtain ⟨total, hends⟩ : ∃ total, tree.EndsAfter (Placement.empty size) total :=
    ⟨_, endsAfter_expansions size⟩
  obtain ⟨last, hlast, hfinal⟩ := id hends
  have htotal := SearchTree.advances_walkAfter hlast
  have hlines := fun limit => (trace_spec hends limit).1
  rw [walkAt_eq hlast] at hlines
  obtain ⟨hsolved, hunsolved⟩ := outcomeLine_of_isFinal hlast hfinal
  refine ⟨total, (List.range (total + 1)).map (stepLine <| walkAt size ·), outcomeLine last, hends,
    by simp, ?_, hsolved, hunsolved, hlines none, ?_, ?_⟩
  · intro count hcount blanks
    obtain ⟨walk, hwalk⟩ := SearchTree.walkAfter_eq_ok_of_le hlast hcount
    refine ⟨walk, hwalk, candidate_eq_none_iff hends hwalk, ?_⟩
    rw [List.getElem?_map, List.getElem?_range (Nat.lt_succ_of_le hcount), Option.map_some,
      walkAt_eq hwalk, stepLine_eq, SearchTree.advances_walkAfter hwalk]
  · intro limit
    have hshown : shownSteps (some limit) total = min (min limit (total + 1)) (total + 1) := by
      rw [Nat.min_assoc, Nat.min_self, Nat.min_comm]
      rfl
    rw [hlines (some limit), lastLine, htotal, ← List.map_take, List.take_range, hshown]
  · intro limit
    have hfault := (trace_spec hends limit).2
    refine ⟨hfault, ?_⟩
    rintro config rfl
    refine ⟨rfl, ?_, ?_⟩
    · rw [reportTrace, hfault]
      rfl
    · rw [reportTrace, hfault]
      rfl

/-- On a board of four rows the first line has its number in the last of six places, and no queens.
A limit one beyond the last step changes nothing, the number of the last step as the limit puts the
stop in the place of the outcome, and with the limit 0 there is the stop alone. -/
theorem four_rows_limits :
    ∃ total, tree.EndsAfter (Placement.empty 4) total ∧
      (trace 4 none).lines[0]? = some "     0  []" ∧
      (trace 4 (some (total + 1))).lines = (trace 4 none).lines ∧
      (trace 4 (some total)).lines.getLast? = some s!"stopped after {total} steps" ∧
      (trace 4 (some 0)).lines = ["stopped after 0 steps"] ∧
      (reportTrace { engine := .astar, boardSize := { rows := 4 } } (some total)).trouble =
        none := by
  obtain ⟨total, steps, outcome, hends, hlength, hline, _, _, hfull, hlimited, hreport⟩ :=
    limited_trace_shows_first_steps 4
  refine ⟨total, hends, ?_, ?_, ?_, ?_, ((hreport (some total)).2 _ rfl).2.1⟩
  · obtain ⟨walk, hwalk, _, hfirst⟩ := hline 0 (Nat.zero_le total)
    obtain rfl : (Placement.empty 4).walk = walk :=
      Except.ok.inj (SearchTree.walkAfter_zero.symm.trans hwalk)
    rw [candidate_walk] at hfirst
    rw [hfull, List.getElem?_append_left (by omega), hfirst]
    rfl
  · rw [hlimited, hfull, Nat.min_self, if_neg (by omega), ← hlength, List.take_length]
  · rw [hlimited, if_pos (Nat.le_refl total), List.getLast?_concat]
  · rw [hlimited, if_pos (Nat.zero_le total), Nat.zero_min, List.take_zero]
    rfl

end QueensPuzzle.CommandLine
