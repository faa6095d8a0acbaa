import QueensPuzzle.Proofs.Board.Occupancy
import QueensPuzzle.Proofs.Placement.Candidates
import QueensPuzzle.Proofs.Session.Deadline
import QueensPuzzle.Session.Stepping

/-! # What holds of every stepping session

A session never loses its search, and the search is at what as many advances from the empty
board lead to as the session has taken steps, one at a time or in stretches. So whatever a
session shows depends on the number of its steps alone, and that number tells how many are left.
-/

namespace QueensPuzzle.Session.Stepping

open Search Deadline

/-- The sessions that come up on a board, each with the number of steps it has taken: those that
were taken one at a time, and those that a stretch gives as taken. -/
inductive Reachable (size : Nat) : Stepping → Nat → Prop
  | new : Reachable size (.new size) 0
  | advance {session : Stepping} {taken : Nat} (h : Reachable size session taken)
      (hok : session.advance.1 = .ok ()) : Reachable size session.advance.2 (taken + 1)
  | refused {session : Stepping} {taken : Nat} {fault : Fault} (h : Reachable size session taken)
      (herror : session.advance.1 = .error fault) : Reachable size session.advance.2 taken
  | runFor {session : Stepping} {taken : Nat} (h : Reachable size session taken) (budget : Float)
      (now : Nat → Float) :
      Reachable size (session.runFor budget now).session (taken + (session.runFor budget now).taken)
  | board {session : Stepping} {taken : Nat} (h : Reachable size session taken) :
      Reachable size session.board.2 taken

/-- The session has its search, which is at what so many advances lead to, and the cells at hand
are those of the board. -/
structure Sound (size taken : Nat) (session : Stepping) : Prop where
  size_eq : session.size = size
  cells : session.cells.Serves size
  owns : ∃ walk, session.walk = some walk ∧
    Placement.tree.walkAfter (.empty size) taken = .ok walk

variable {size taken total first limit : Nat} {session : Stepping} {deadline : Float}
  {now : Nat → Float} {stretch : Stretch} {walk : Walk Placement}

theorem isFinal_of_walk (h : session.walk = some walk) : session.isFinal = walk.isFinal := by
  rw [isFinal, h]
  rfl

theorem steps_of_walk (h : session.walk = some walk) : session.steps = walk.advances := by
  rw [steps, h]
  rfl

theorem candidate_of_walk (h : session.walk = some walk) :
    session.candidate = walk.candidate.map (·.queens) := by
  rw [candidate, h]
  rfl

theorem sound_new (size : Nat) : (new size).Sound size 0 :=
  ⟨rfl, CellCache.serves_new size, _, rfl, SearchTree.walkAfter_zero⟩

namespace Sound

/-- All that a step can do: nothing where the search is over, else what an advance does. -/
theorem advance_cases (h : session.Sound size taken) :
    (session.isFinal = true ∧ session.advance = (.error .alreadyFinal, session)) ∨
    (session.isFinal = false ∧
      ∃ next, session.advance = (.ok (), next) ∧ next.Sound size (taken + 1)) := by
  obtain ⟨walk, hwalk, htaken⟩ := h.owns
  have hsame := isFinal_of_walk hwalk
  cases hfinal : walk.isFinal with
  | true =>
      refine .inl ⟨hsame.trans hfinal, ?_⟩
      simp only [advance, hwalk, hfinal, if_true]
      rw [← hwalk]
  | false =>
      obtain ⟨next, hnext⟩ := (SearchTree.exists_advance_iff Placement.tree walk).mpr hfinal
      refine .inr ⟨hsame.trans hfinal, { session with walk := some next }, ?_, ?_⟩
      · simp only [advance, hwalk, hfinal, hnext]
        rfl
      · refine ⟨h.size_eq, h.cells, next, rfl, ?_⟩
        exact SearchTree.walkAfter_succ_eq_ok_iff.mpr ⟨walk, htaken, hnext⟩

theorem board (h : session.Sound size taken) : session.board.2.Sound size taken :=
  ⟨h.size_eq, h.cells.describe _, h.owns⟩

/-- The picture does not depend on what was drawn before. -/
theorem board_fst (h : session.Sound size taken) : session.board.1 =
    (session.candidate.elim .empty (Position.ofSquares · size)).diagram size := by
  rw [← h.cells.describe_fst]
  unfold Stepping.board
  cases session.candidate with
  | none => rfl
  | some queens => rw [h.size_eq]; rfl

theorem isFinal_iff (h : session.Sound size taken)
    (hends : Placement.tree.EndsAfter (.empty size) total) :
    session.isFinal = true ↔ taken = total := by
  obtain ⟨walk, hwalk, htaken⟩ := h.owns
  rw [isFinal_of_walk hwalk]
  exact hends.isFinal_iff htaken

theorem le (h : session.Sound size taken)
    (hends : Placement.tree.EndsAfter (.empty size) total) : taken ≤ total := by
  obtain ⟨walk, _, htaken⟩ := h.owns
  exact hends.le htaken

end Sound

/-- The stretch with the step that leads to the given session, and with the reading behind it. -/
def Stretch.step (session : Stepping) (stretch : Stretch) : Stretch :=
  ⟨session, stretch.taken + 1, stretch.readings + 1, session.events ++ stretch.events⟩

theorem runUntil_of_isFinal (h : stretch.session.isFinal = true) (limit : Nat) :
    runUntil deadline now limit stretch = stretch := by
  cases limit with
  | zero => rfl
  | succ limit => rw [runUntil, if_pos h]

theorem runUntil_succ (hfinal : stretch.session.isFinal = false)
    (h : stretch.session.advance = (.ok (), session)) (limit : Nat) :
    runUntil deadline now (limit + 1) stretch =
      if deadline ≤ now stretch.readings then stretch.step session
      else runUntil deadline now limit (stretch.step session) := by
  rw [runUntil, hfinal, h]
  rfl

/-- One turn of the loop takes a step and reads the clock once, so the next turn counts the
readings from one further on. -/
theorem runUntil_spec (hends : Placement.tree.EndsAfter (.empty size) total)
    (h : stretch.session.Sound size taken) (hreadings : stretch.readings = first + 1)
    (hlimit : total ≤ taken + limit) (deadline : Float) (now : Nat → Float) :
    let last := runUntil deadline now limit stretch
    ∃ more, last.taken = stretch.taken + more ∧ last.readings = stretch.readings + more ∧
      last.session.Sound size (taken + more) ∧
      StopsAfter (fun j => deadline ≤ now (first + j)) (total - taken) more := by
  induction limit generalizing stretch taken first with
  | zero =>
      have hnone : total - taken = 0 := by omega
      rw [hnone]
      exact ⟨0, rfl, rfl, h, .nothing _⟩
  | succ limit ih =>
      obtain ⟨hfinal, _⟩ | ⟨hfinal, session, hadvance, hsession⟩ := h.advance_cases
      · have hnone : total - taken = 0 := by rw [(h.isFinal_iff hends).mp hfinal, Nat.sub_self]
        rw [runUntil_of_isFinal hfinal, hnone]
        exact ⟨0, rfl, rfl, h, .nothing _⟩
      · have hsome : total - taken = total - (taken + 1) + 1 := by
          have hle := hsession.le hends
          omega
        rw [runUntil_succ hfinal hadvance, hsome]
        by_cases hdue : deadline ≤ now stretch.readings
        · rw [if_pos hdue]
          rw [hreadings] at hdue
          exact ⟨1, rfl, rfl, hsession, .one hdue⟩
        · rw [if_neg hdue]
          rw [hreadings] at hdue
          let next := stretch.step session
          have hnext : next.readings = first + 1 + 1 := congrArg (· + 1) hreadings
          obtain ⟨more, htaken, hread, hsound, hstops⟩ :=
            ih (show next.session.Sound size (taken + 1) from hsession) hnext (by omega)
          simp only [Nat.add_right_comm _ 1] at hsound hstops
          refine ⟨more + 1, ?_, ?_, hsound, .succ hdue hstops⟩
          · rw [htaken]
            exact Nat.add_right_comm _ _ _
          · rw [hread]
            exact Nat.add_right_comm _ _ _

/-- No stretch comes to the limit that its loop is given. -/
theorem runFor_spec (hends : Placement.tree.EndsAfter (.empty size) total)
    (h : session.Sound size taken) (budget : Float) (now : Nat → Float) :
    let stretch := session.runFor budget now
    stretch.readings = 1 + stretch.taken ∧ stretch.session.Sound size (taken + stretch.taken) ∧
      StopsAfter (fun j => now 0 + budget ≤ now j) (total - taken) stretch.taken := by
  have hlimit : total ≤ taken + (Placement.empty session.size).reach := by
    obtain ⟨count, hcount, hother⟩ := Placement.exists_endsAfter_empty size
    rw [h.size_eq, hother.unique hends]
    omega
  let start : Stretch := ⟨session, 0, 1, []⟩
  have hstart : start.session.Sound size taken := h
  have hreadings : start.readings = 0 + 1 := rfl
  obtain ⟨more, htaken, hread, hsound, hstops⟩ :=
    runUntil_spec hends hstart hreadings hlimit (now 0 + budget) now
  simp only [Nat.zero_add] at hstops
  obtain rfl : more = (session.runFor budget now).taken := by
    rw [← Nat.zero_add more]
    exact htaken.symm
  exact ⟨hread, hsound, hstops⟩

theorem Reachable.sound (h : Reachable size session taken) : session.Sound size taken := by
  induction h with
  | new => exact sound_new size
  | advance _ hok ih =>
      obtain ⟨_, hrefused⟩ | ⟨_, next, hnext, hsound⟩ := ih.advance_cases
      · rw [hrefused] at hok
        cases hok
      · rw [hnext]
        exact hsound
  | refused _ herror ih =>
      obtain ⟨_, hrefused⟩ | ⟨_, next, hnext, _⟩ := ih.advance_cases
      · rw [hrefused]
        exact ih
      · rw [hnext] at herror
        cases herror
  | runFor _ budget now ih =>
      obtain ⟨_, _, hends⟩ := Placement.exists_endsAfter_empty size
      exact (runFor_spec hends ih budget now).2.1
  | board _ ih => exact ih.board

/-- A session that has taken so many steps has the search that as many advances lead to, and shows
it: whether it is over, how many steps it took, its queens, and the board with these queens. What
comes next depends on the same number alone. A step is refused exactly if the search is over, and
then changes nothing. If `total` advances lead to the end, a stretch takes all the steps that are
left, unless the deadline is due before: the clock shows it for the first time with reading `j`
behind the one at the start, which leaves `j` steps. A stretch reads the clock once at the start
and once after each step, and takes a step if the search is not over. -/
theorem reachable_depends_on_steps (h : Reachable size session taken) :
    (∃ walk, session.walk = some walk ∧
      Placement.tree.walkAfter (.empty size) taken = .ok walk ∧ session.isFinal = walk.isFinal ∧
      session.steps = walk.advances ∧ session.candidate = walk.candidate.map (·.queens)) ∧
    session.steps = taken ∧
    session.board.1 = (session.candidate.elim .empty (Position.ofSquares · size)).diagram size ∧
    ((session.advance.1 = .error .alreadyFinal ↔ session.isFinal = true) ∧
      (session.isFinal = true → session.advance.2 = session) ∧
      (session.isFinal = false → session.advance.1 = .ok ())) ∧
    ∃ total, Placement.tree.EndsAfter (.empty size) total ∧ taken ≤ total ∧
      (session.isFinal = true ↔ total - taken = 0) ∧
      ∀ (budget : Float) (now : Nat → Float),
        let due := fun j => now 0 + budget ≤ now j
        let stretch := session.runFor budget now
        (∀ j, IsLeast {j | 1 ≤ j ∧ due j} j → stretch.taken = min (total - taken) j) ∧
        ((∀ j ≥ 1, ¬due j) → stretch.taken = total - taken) ∧
        (Unbounded now budget → stretch.taken = total - taken) ∧
        stretch.readings = 1 + stretch.taken ∧
        (session.isFinal = false → 0 < stretch.taken) := by
  have hsound := h.sound
  obtain ⟨walk, hwalk, htaken⟩ := hsound.owns
  have hsteps := steps_of_walk hwalk
  obtain ⟨total, _, hends⟩ := Placement.exists_endsAfter_empty size
  have hle := hsound.le hends
  have hfinal := hsound.isFinal_iff hends
  refine ⟨⟨walk, hwalk, htaken, isFinal_of_walk hwalk, hsteps, candidate_of_walk hwalk⟩, ?_,
    hsound.board_fst, ?_, total, hends, hle, ?_, ?_⟩
  · rw [hsteps, SearchTree.advances_walkAfter htaken]
  · obtain ⟨hover, hrefused⟩ | ⟨hgoes, next, hnext, _⟩ := hsound.advance_cases
    · simp [hover, hrefused]
    · simp [hgoes, hnext]
  · rw [hfinal]
    omega
  · intro budget now due stretch
    obtain ⟨hread, _, hstops⟩ := runFor_spec hends hsound budget now
    refine ⟨fun j => hstops.eq_min, hstops.eq_remaining, ?_, hread, ?_⟩
    · intro hunbounded
      exact hstops.eq_remaining fun _ => hunbounded.not_le
    · intro hgoes
      refine hstops.pos ?_
      have hne := mt hfinal.mpr (by simp [hgoes])
      omega

/-- Three steps until a clock shows three, and then, as what is not a number is never due, all the
steps to the end. -/
theorem stretches_to_end :
    let first := (new 4).runFor 3.0 Float.ofNat
    let second := first.session.runFor nan Float.ofNat
    first.taken = 3 ∧ first.readings = 4 ∧ second.session.isFinal = true ∧
      second.session.advance.1 = .error .alreadyFinal := by
  intro first second
  have hnew : Reachable 4 (new 4) 0 := .new
  obtain ⟨_, _, _, _, total, hends, _, _, hstretches⟩ := reachable_depends_on_steps hnew
  obtain ⟨hdue, _, _, hread, _⟩ := hstretches 3.0 Float.ofNat
  have hleast : IsLeast {j | 1 ≤ j ∧ Float.ofNat 0 + 3.0 ≤ Float.ofNat j} 3 := by
    refine ⟨by decide, ?_⟩
    intro j hj
    by_contra hlt
    obtain ⟨hpos, hle⟩ := hj
    have hcases : j = 1 ∨ j = 2 := by omega
    obtain rfl | rfl := hcases
    · exact absurd hle (by decide)
    · exact absurd hle (by decide)
  have hexpansions : (Placement.empty 4).expansions = 8 := by cbv
  have htotal : 8 = total := by
    rw [← hexpansions]
    exact hends.unique (Placement.endsAfter_expansions 4)
  have htaken : first.taken = 3 := by
    rw [hdue 3 hleast]
    omega
  have hfirst : Reachable 4 first.session (0 + first.taken) := hnew.runFor 3.0 Float.ofNat
  obtain ⟨_, _, _, _, total, hends, _, _, hstretches⟩ := reachable_depends_on_steps hfirst
  obtain ⟨_, _, hall, _, _⟩ := hstretches nan Float.ofNat
  have hrest := hall .nan
  obtain ⟨_, _, _, hrefused, other, hother, _, hover, _⟩ :=
    reachable_depends_on_steps (hfirst.runFor nan Float.ofNat)
  have hfinal : second.session.isFinal = true := by
    rw [hover, hrest, hends.unique hother]
    omega
  exact ⟨htaken, by rw [hread, htaken], hfinal, hrefused.1.mpr hfinal⟩

end QueensPuzzle.Session.Stepping
