import Mathlib.Data.List.Chain
import QueensPuzzle.Proofs.Search.DepthFirst

/-! # The order of a walk

A walk enters the nodes of the tree in preorder. Its frames are the way from the root to the
node entered last, each with the branches behind the one that was taken, so that the branches
left untried, read from the top frame down, are the work still to be done. Told on this list
alone, an advance is one move of a machine with a single worklist.
-/

namespace QueensPuzzle.Search

variable {Node σ : Type}

namespace SearchTree

variable {tree : SearchTree Node} {root node : Node} {depth count : Nat}

/-- The nodes of the upper `depth` levels of the tree below a node: each before what is below
it, branch by branch in the order in which they are tried. -/
def preorder (tree : SearchTree Node) : Nat → Node → List Node
  | 0, _ => []
  | depth + 1, node => node :: (tree.branches node).flatMap (tree.preorder depth)

theorem below_of_mem_preorder (h : node ∈ tree.preorder depth root) : tree.Below root node := by
  induction depth generalizing root with
  | zero => cases h
  | succ depth ih =>
      rw [preorder, List.mem_cons, List.mem_flatMap] at h
      rcases h with rfl | ⟨child, hchild, hnode⟩
      · exact .refl
      · exact (ih hnode).head hchild

theorem Below.exists_mem_preorder (h : tree.Below root node) :
    ∃ level, ∀ depth > level, node ∈ tree.preorder depth root := by
  induction h using Relation.ReflTransGen.head_induction_on with
  | refl =>
      refine ⟨0, ?_⟩
      intro depth hdepth
      obtain ⟨depth, rfl⟩ : ∃ k, depth = k + 1 := ⟨depth - 1, by omega⟩
      exact List.mem_cons_self
  | head hchild _ ih =>
      obtain ⟨level, hlevel⟩ := ih
      refine ⟨level + 1, ?_⟩
      intro depth hdepth
      obtain ⟨depth, rfl⟩ : ∃ k, depth = k + 1 := ⟨depth - 1, by omega⟩
      rw [preorder, List.mem_cons, List.mem_flatMap]
      exact .inr ⟨_, hchild, hlevel depth (by omega)⟩

/-- The walk after so many advances, or the fault of the first that fails. -/
def walkAfter (tree : SearchTree Node) (root : Node) (count : Nat) : Except Fault (Walk Node) :=
  ((tree.walk root).advanceNoting tree (fun _ _ => ()) count ()).1

theorem walkAfter_zero : tree.walkAfter root 0 = .ok (tree.walk root) := rfl

theorem advanceNoting_succ (note : σ → Walk Node → σ) (walk : Walk Node) (seen : σ) :
    (walk.advanceNoting tree note (count + 1) seen).1 =
      (walk.advanceNoting tree note count seen).1.bind (·.advance tree) := by
  induction count generalizing walk seen with
  | zero =>
      simp only [Walk.advanceNoting, Except.bind]
      cases walk.advance tree <;> rfl
  | succ count ih =>
      rw [Walk.advanceNoting]
      cases hadvance : walk.advance tree with
      | error fault => simp [Walk.advanceNoting, hadvance, Except.bind]
      | ok next => simpa [Walk.advanceNoting, hadvance] using ih next (note seen next)

theorem walkAfter_succ :
    tree.walkAfter root (count + 1) = (tree.walkAfter root count).bind (·.advance tree) :=
  advanceNoting_succ _ _ _

theorem walkAfter_succ_eq_ok_iff {next : Walk Node} :
    tree.walkAfter root (count + 1) = .ok next ↔
      ∃ walk, tree.walkAfter root count = .ok walk ∧ walk.advance tree = .ok next := by
  rw [walkAfter_succ]
  cases tree.walkAfter root count <;> simp [Except.bind]

end SearchTree

/-! ## The frames -/

/-- The frame is the next on the way down from `parent`: its node is one of the branches there,
and those behind it are the ones still untried. -/
def Frame.Continues (tree : SearchTree Node) (frame parent : Frame Node) : Prop :=
  ∃ tried, tree.branches parent.node = tried ++ frame.node :: parent.untried

/-- The frames are the way down from the root, and nothing below the top one is tried yet. -/
structure Trail.LeadsFrom (tree : SearchTree Node) (root : Node) (trail : Trail Node) : Prop where
  linked : trail.frames.IsChain (Frame.Continues tree)
  root_eq : trail.frames.getLast?.map (·.node) = some root
  untried_eq : ∀ frame ∈ trail.frames.head?, frame.untried = tree.branches frame.node

/-- Frames as they are while the next node is looked for: some branches of the top one are
tried already. -/
structure Opened (tree : SearchTree Node) (root : Node) (frames : List (Frame Node)) : Prop where
  linked : frames.IsChain (Frame.Continues tree)
  root_eq : frames.getLast?.map (·.node) = some root
  tried : ∀ frame ∈ frames.head?, ∃ tried, tree.branches frame.node = tried ++ frame.untried

theorem Trail.LeadsFrom.opened {tree : SearchTree Node} {root : Node} {trail : Trail Node}
    (h : trail.LeadsFrom tree root) : Opened tree root trail.frames := by
  refine ⟨h.linked, h.root_eq, ?_⟩
  intro frame hframe
  exact ⟨[], (h.untried_eq frame hframe).symm⟩

theorem Opened.leave {tree : SearchTree Node} {root : Node} {left parent : Frame Node}
    {frames : List (Frame Node)} (h : Opened tree root (left :: parent :: frames)) :
    Opened tree root (parent :: frames) := by
  obtain ⟨hcontinues, hlinked⟩ := List.isChain_cons_cons.mp h.linked
  refine ⟨hlinked, by simpa using h.root_eq, ?_⟩
  obtain ⟨tried, htried⟩ := hcontinues
  simpa using ⟨tried ++ [left.node], by simpa using htried⟩

/-- The frames below depend on the node of the frame above only, not on what it has tried. -/
theorem Opened.push {tree : SearchTree Node} {root node next : Node} {untried : List Node}
    {frames : List (Frame Node)} (h : Opened tree root (⟨node, next :: untried⟩ :: frames)) :
    Trail.LeadsFrom tree root
      ⟨⟨next, tree.branches next⟩ :: ⟨node, untried⟩ :: frames, frames.length + 2, rfl⟩ where
  linked := by
    have hbelow : (⟨node, untried⟩ :: frames).IsChain (Frame.Continues tree) := by
      cases frames with
      | nil => exact .singleton _
      | cons parent frames =>
          have hlinked := List.isChain_cons_cons.mp h.linked
          exact List.isChain_cons_cons.mpr hlinked
    exact List.isChain_cons_cons.mpr ⟨h.tried _ rfl, hbelow⟩
  root_eq := by
    have hroot := h.root_eq
    cases frames with
    | nil => simpa using hroot
    | cons parent frames => simpa using hroot
  untried_eq := by simp

namespace SearchTree

variable {tree : SearchTree Node} {root : Node} {count : Nat}

theorem walk_leadsFrom {trail : Trail Node} (h : (tree.walk root).phase = .searching trail) :
    trail.LeadsFrom tree root := by
  cases hsolution : tree.isSolution root with
  | true => simp [walk, walkAsking, enter, hsolution] at h
  | false =>
      simp only [walk, walkAsking, enter, hsolution] at h
      cases h
      exact ⟨.singleton _, rfl, by simp⟩

/-- However many frames are left on the way, the one that is entered comes right below one of
those that stay. -/
theorem enterNextOf_leadsFrom {frames : List (Frame Node)} (hopened : Opened tree root frames)
    {depth : Nat} (hdepth : depth = frames.length) (note : σ → Query Node → σ) (asked : σ)
    {trail : Trail Node}
    (h : (tree.enterNextOf note frames depth hdepth asked).1 = .searching trail) :
    trail.LeadsFrom tree root := by
  induction frames generalizing depth with
  | nil => cases h
  | cons frame frames ih =>
      obtain ⟨node, untried⟩ := frame
      cases untried with
      | nil =>
          cases frames with
          | nil => cases h
          | cons parent frames => exact ih hopened.leave _ h
      | cons next untried =>
          subst hdepth
          unfold enterNextOf enter at h
          split at h
          · cases h
          · cases h
            exact hopened.push

theorem advance_leadsFrom {walk next : Walk Node}
    (hwalk : ∀ trail, walk.phase = .searching trail → trail.LeadsFrom tree root)
    (hadvance : walk.advance tree = .ok next) {trail : Trail Node}
    (h : next.phase = .searching trail) : trail.LeadsFrom tree root := by
  obtain ⟨phase, advances⟩ := walk
  cases phase with
  | finished found => cases hadvance
  | searching before =>
      cases hadvance
      exact enterNextOf_leadsFrom (hwalk before rfl).opened before.depth_eq _ _ h

theorem walkAfter_leadsFrom {walk : Walk Node} (hwalk : tree.walkAfter root count = .ok walk)
    {trail : Trail Node} (h : walk.phase = .searching trail) : trail.LeadsFrom tree root := by
  induction count generalizing walk trail with
  | zero =>
      cases hwalk
      exact walk_leadsFrom h
  | succ count ih =>
      obtain ⟨before, hbefore, hadvance⟩ := walkAfter_succ_eq_ok_iff.mp hwalk
      exact advance_leadsFrom (fun trail htrail => ih hbefore htrail) hadvance h

end SearchTree

/-! ## The worklist -/

/-- A walk without its frames: the node it is at and the nodes still to be entered. -/
inductive Worklist (Node : Type) where
  | searching (candidate : Option Node) (pending : List Node)
  | finished (candidate : Option Node)

namespace Worklist

def candidate : Worklist Node → Option Node
  | .searching candidate _ => candidate
  | .finished candidate => candidate

def isFinal : Worklist Node → Bool
  | .searching _ _ => false
  | .finished _ => true

def enter (tree : SearchTree Node) (node : Node) (rest : List Node) : Worklist Node :=
  if tree.isSolution node then .finished (some node)
  else .searching (some node) (tree.branches node ++ rest)

theorem candidate_enter (tree : SearchTree Node) (node : Node) (rest : List Node) :
    (enter tree node rest).candidate = some node := by
  unfold enter
  split <;> rfl

/-- Enters the node that is pending first. -/
def move (tree : SearchTree Node) : Worklist Node → Except Fault (Worklist Node)
  | .searching _ [] => .ok (.finished none)
  | .searching _ (next :: rest) => .ok (enter tree next rest)
  | .finished _ => .error .alreadyFinal

end Worklist

def Phase.worklist : Phase Node → Worklist Node
  | .searching trail => .searching (trail.frames.head?.map (·.node)) trail.pending
  | .finished found => .finished found

def Walk.worklist (walk : Walk Node) : Worklist Node := walk.phase.worklist

@[simp] theorem Walk.candidate_worklist (walk : Walk Node) :
    walk.worklist.candidate = walk.candidate := by
  obtain ⟨phase, advances⟩ := walk
  cases phase <;> rfl

@[simp] theorem Walk.isFinal_worklist (walk : Walk Node) :
    walk.worklist.isFinal = walk.isFinal := by
  obtain ⟨phase, advances⟩ := walk
  cases phase <;> rfl

namespace SearchTree

variable {tree : SearchTree Node} {root : Node} {count : Nat}

theorem worklist_enter (note : σ → Query Node → σ) (node : Node) (trail : Trail Node) (asked : σ) :
    (tree.enter note node trail asked).1.worklist = .enter tree node trail.pending := by
  cases hsolution : tree.isSolution node <;>
    simp [enter, hsolution, Worklist.enter, Phase.worklist, Trail.pending]

theorem worklist_walk : (tree.walk root).worklist = .enter tree root [] :=
  worklist_enter (fun _ _ => ()) root .empty ()

end SearchTree

/-- An advance is a move of the worklist, and fails where there is none. -/
theorem Walk.worklist_advance (tree : SearchTree Node) (walk : Walk Node) :
    (walk.advance tree).map (·.worklist) = walk.worklist.move tree := by
  obtain ⟨phase, advances⟩ := walk
  cases phase with
  | finished found => rfl
  | searching trail =>
      rw [worklist, Phase.worklist]
      cases hpending : trail.pending with
      | nil =>
          rw [advance_of_pending_nil hpending]
          rfl
      | cons next rest =>
          obtain ⟨kept, hkept, hadvance⟩ := advance_of_pending_cons tree hpending
          have hentered := tree.worklist_enter (fun _ _ => ()) next kept ()
          rw [hkept] at hentered
          rw [hadvance]
          exact congrArg Except.ok hentered

/-- Each frame still has to try branches of its own node only, and its node is on the way down to
the top one. -/
theorem Opened.below_top {tree : SearchTree Node} {root : Node} {top : Frame Node}
    {frames : List (Frame Node)} (h : Opened tree root (top :: frames)) {frame : Frame Node}
    (hframe : frame ∈ top :: frames) :
    tree.Below frame.node top.node ∧ frame.untried ⊆ tree.branches frame.node := by
  induction frames generalizing top with
  | nil =>
      obtain rfl := List.mem_singleton.mp hframe
      obtain ⟨tried, htried⟩ := h.tried frame rfl
      exact ⟨.refl, by simp [htried]⟩
  | cons parent frames ih =>
      rcases List.mem_cons.mp hframe with rfl | hbelow
      · obtain ⟨tried, htried⟩ := h.tried frame rfl
        exact ⟨.refl, by simp [htried]⟩
      · obtain ⟨⟨tried, htried⟩, _⟩ := List.isChain_cons_cons.mp h.linked
        obtain ⟨habove, hsub⟩ := ih h.leave hbelow
        exact ⟨habove.tail (by simp [htried]), hsub⟩

/-- An advance comes to the node that is pending first. -/
theorem Walk.head?_pending_of_advance {tree : SearchTree Node} {walk next : Walk Node}
    {trail : Trail Node} {child : Node} (htrail : walk.phase = .searching trail)
    (hadvance : walk.advance tree = .ok next) (hchild : next.candidate = some child) :
    trail.pending.head? = some child := by
  have hmove := walk.worklist_advance tree
  rw [hadvance, worklist, htrail, Phase.worklist] at hmove
  cases hpending : trail.pending with
  | nil =>
      rw [hpending] at hmove
      have hnone := congrArg Worklist.candidate (Except.ok.inj hmove)
      rw [Walk.candidate_worklist, hchild] at hnone
      cases hnone
  | cons first rest =>
      rw [hpending] at hmove
      have hfirst := congrArg Worklist.candidate (Except.ok.inj hmove)
      rw [Walk.candidate_worklist, hchild, Worklist.candidate_enter] at hfirst
      exact hfirst.symm

/-- Wherever an advance comes to, it is a branch of a node on the way down to the candidate. -/
theorem SearchTree.exists_parent_of_advance {tree : SearchTree Node} {root : Node} {count : Nat}
    {walk next : Walk Node} (hwalk : tree.walkAfter root count = .ok walk)
    (hadvance : walk.advance tree = .ok next) {node child : Node}
    (hnode : walk.candidate = some node) (hchild : next.candidate = some child) :
    ∃ parent, tree.Below parent node ∧ child ∈ tree.branches parent := by
  obtain ⟨phase, advances⟩ := walk
  cases phase with
  | finished found => cases hadvance
  | searching trail =>
      have hopened := (walkAfter_leadsFrom hwalk rfl).opened
      have hhead := Walk.head?_pending_of_advance rfl hadvance hchild
      obtain ⟨frame, hframe, huntried⟩ := List.mem_flatMap.mp (List.mem_of_head? hhead)
      obtain ⟨top, frames, htop⟩ := List.exists_cons_of_ne_nil (List.ne_nil_of_mem hframe)
      obtain rfl : top.node = node := by simpa [Walk.candidate, htop] using hnode
      rw [htop] at hopened hframe
      obtain ⟨hbelow, hsub⟩ := hopened.below_top hframe
      exact ⟨frame.node, hbelow, hsub huntried⟩

theorem Walk.solution_eq_candidate (walk : Walk Node) (h : walk.isFinal = true) :
    walk.solution = walk.candidate := by
  obtain ⟨phase, advances⟩ := walk
  cases phase with
  | searching trail => cases h
  | finished found => rfl

theorem Walk.advances_of_advance {tree : SearchTree Node} {walk next : Walk Node}
    (h : walk.advance tree = .ok next) : next.advances = walk.advances + 1 := by
  obtain ⟨phase, advances⟩ := walk
  cases phase with
  | finished found => cases h
  | searching trail =>
      cases h
      rfl

/-! ## Preorder -/

/-- The worklist after `count` moves, against the nodes of the upper `depth` levels in order:
those entered are the first of them, none a solution but the last, and the others are what is
in the trees below the pending nodes, cut off at the same level. -/
structure Worklist.Follows (tree : SearchTree Node) (entries : List Node) (depth count : Nat)
    (work : Worklist Node) : Prop where
  candidate_eq : work.candidate = entries[count]?
  isFinal_eq : work.isFinal = work.candidate.all tree.isSolution
  entered : ∀ i < count, ∃ node, entries[i]? = some node ∧ tree.isSolution node = false
  pending : ∀ candidate pending, work = .searching candidate pending →
    ∃ levels : List (Nat × Node), levels.map Prod.snd = pending ∧
      (∀ level ∈ levels, depth ≤ level.1 + count + 1) ∧
      entries.drop (count + 1) = levels.flatMap fun level => tree.preorder level.1 level.2

namespace Worklist.Follows

variable {tree : SearchTree Node} {entries : List Node} {depth count : Nat}

theorem enter {node : Node} {rest : List Node} (level : Nat) (levels : List (Nat × Node))
    (hentered : ∀ i < count, ∃ node, entries[i]? = some node ∧ tree.isSolution node = false)
    (hrest : levels.map Prod.snd = rest)
    (hlevels : ∀ level ∈ levels, depth ≤ level.1 + count + 1) (hlevel : depth ≤ level + count + 1)
    (hdrop : entries.drop count = tree.preorder (level + 1) node ++
      levels.flatMap fun level => tree.preorder level.1 level.2) :
    (Worklist.enter tree node rest).Follows tree entries depth count := by
  have hcandidate : entries[count]? = some node := by
    rw [← List.head?_drop, hdrop]
    rfl
  cases hsolution : tree.isSolution node with
  | true =>
      refine ⟨?_, ?_, hentered, ?_⟩ <;>
        simp [Worklist.enter, hsolution, Worklist.candidate, Worklist.isFinal, hcandidate]
  | false =>
      refine ⟨?_, ?_, hentered, ?_⟩
      · simp [Worklist.enter, hsolution, Worklist.candidate, hcandidate]
      · simp [Worklist.enter, hsolution, Worklist.candidate, Worklist.isFinal]
      · intro candidate pending hwork
        simp only [Worklist.enter, hsolution] at hwork
        cases hwork
        -- The branches come to the front, one level further down than their node.
        refine ⟨(tree.branches node).map (Prod.mk level) ++ levels, ?_, ?_, ?_⟩
        · simp [hrest, Function.comp_def]
        · intro below hbelow
          rcases List.mem_append.mp hbelow with hbranch | hbehind
          · obtain ⟨branch, _, rfl⟩ := List.mem_map.mp hbranch
            exact hlevel
          · exact hlevels below hbehind
        · rw [← List.tail_drop, hdrop]
          simp [SearchTree.preorder, List.flatMap_map]

theorem start {root : Node} (hdepth : 0 < depth) :
    (Worklist.enter tree root []).Follows tree (tree.preorder depth root) depth 0 := by
  obtain ⟨depth, rfl⟩ : ∃ k, depth = k + 1 := ⟨depth - 1, by omega⟩
  exact Follows.enter depth [] (by simp) rfl (by simp) (Nat.le_refl (depth + 1)) (by simp)

theorem entered_of_searching {candidate : Option Node} {pending : List Node}
    (h : (Worklist.searching candidate pending).Follows tree entries depth count) :
    ∀ i < count + 1, ∃ node, entries[i]? = some node ∧ tree.isSolution node = false := by
  intro i hi
  by_cases hlast : i = count
  · have hcandidate : candidate = entries[count]? := h.candidate_eq
    have hfinal : false = candidate.all tree.isSolution := h.isFinal_eq
    subst hlast
    rw [← hcandidate]
    cases candidate with
    | none => simp at hfinal
    | some node => exact ⟨node, rfl, by simpa using hfinal.symm⟩
  · exact h.entered i (by omega)

theorem move {work next : Worklist Node} (h : work.Follows tree entries depth count)
    (hdepth : count + 1 < depth) (hmove : work.move tree = .ok next) :
    next.Follows tree entries depth (count + 1) := by
  cases work with
  | finished candidate => cases hmove
  | searching candidate pending =>
      have hentered := h.entered_of_searching
      obtain ⟨levels, hpending, hlevels, hdrop⟩ := h.pending candidate pending rfl
      cases levels with
      | nil =>
          subst hpending
          cases hmove
          have hnone : entries[count + 1]? = none := by
            rw [← List.head?_drop, hdrop]
            rfl
          exact ⟨hnone.symm, rfl, hentered, by simp⟩
      | cons first levels =>
          obtain ⟨level, node⟩ := first
          subst hpending
          cases hmove
          have hlevel : depth ≤ level + count + 1 := hlevels _ List.mem_cons_self
          obtain ⟨level, rfl⟩ : ∃ k, level = k + 1 := ⟨level - 1, by omega⟩
          refine Follows.enter level levels hentered rfl ?_ (by omega) (by simpa using hdrop)
          intro below hbelow
          have hbound := hlevels below (List.mem_cons_of_mem _ hbelow)
          omega

end Worklist.Follows

namespace SearchTree

variable {tree : SearchTree Node} {root : Node} {count : Nat} {walk : Walk Node}

theorem worklist_follows (h : tree.walkAfter root count = .ok walk) {depth : Nat}
    (hdepth : count < depth) :
    walk.worklist.Follows tree (tree.preorder depth root) depth count := by
  induction count generalizing walk with
  | zero =>
      cases h
      rw [worklist_walk]
      exact .start hdepth
  | succ count ih =>
      obtain ⟨before, hbefore, hadvance⟩ := walkAfter_succ_eq_ok_iff.mp h
      have hmove : before.worklist.move tree = .ok walk.worklist := by
        rw [← Walk.worklist_advance, hadvance]
        rfl
      exact (ih hbefore (by omega)).move hdepth hmove

theorem advances_walkAfter (h : tree.walkAfter root count = .ok walk) : walk.advances = count := by
  induction count generalizing walk with
  | zero =>
      cases h
      rfl
  | succ count ih =>
      obtain ⟨before, hbefore, hadvance⟩ := walkAfter_succ_eq_ok_iff.mp h
      rw [Walk.advances_of_advance hadvance, ih hbefore]

theorem candidate_walkAfter (h : tree.walkAfter root count = .ok walk) {depth : Nat}
    (hdepth : count < depth) : walk.candidate = (tree.preorder depth root)[count]? := by
  rw [← Walk.candidate_worklist]
  exact (worklist_follows h hdepth).candidate_eq

theorem isFinal_walkAfter (h : tree.walkAfter root count = .ok walk) :
    walk.isFinal = walk.candidate.all tree.isSolution := by
  rw [← Walk.isFinal_worklist, ← Walk.candidate_worklist]
  exact (worklist_follows h (Nat.lt_succ_self count)).isFinal_eq

theorem below_of_candidate (h : tree.walkAfter root count = .ok walk) {node : Node}
    (hcandidate : walk.candidate = some node) : tree.Below root node := by
  rw [candidate_walkAfter h (Nat.lt_succ_self count)] at hcandidate
  exact below_of_mem_preorder (List.mem_of_getElem? hcandidate)

/-- A walk that ends with nothing has entered the whole tree. -/
theorem isSolution_of_candidate_eq_none (h : tree.walkAfter root count = .ok walk)
    (hnone : walk.candidate = none) {node : Node} (hbelow : tree.Below root node) :
    tree.isSolution node = false := by
  obtain ⟨level, hlevel⟩ := hbelow.exists_mem_preorder
  have hdepth : count < max level count + 1 := by omega
  have hmem := hlevel (max level count + 1) (by omega)
  obtain ⟨i, hi⟩ := List.mem_iff_getElem?.mp hmem
  rw [candidate_walkAfter h hdepth, List.getElem?_eq_none_iff] at hnone
  have hlength := (List.getElem?_eq_some_iff.mp hi).1
  obtain ⟨entered, hentered, hnot⟩ := (worklist_follows h hdepth).entered i (by omega)
  rw [hi] at hentered
  cases hentered
  exact hnot

theorem exists_advance_iff (tree : SearchTree Node) (walk : Walk Node) :
    (∃ next, walk.advance tree = .ok next) ↔ walk.isFinal = false := by
  obtain ⟨phase, advances⟩ := walk
  cases phase <;> simp [Walk.advance, Walk.advanceAsking, Except.map, Walk.isFinal]

/-- The walk comes as far as there are nodes in order that are no solution. -/
theorem exists_walkAfter_iff (tree : SearchTree Node) (root : Node) {count depth : Nat}
    (hdepth : count < depth) :
    (∃ walk, tree.walkAfter root count = .ok walk) ↔
      ∀ i < count, ∃ node, (tree.preorder depth root)[i]? = some node ∧
        tree.isSolution node = false := by
  constructor
  · intro h
    obtain ⟨walk, hwalk⟩ := h
    exact (worklist_follows hwalk hdepth).entered
  · intro h
    induction count with
    | zero => exact ⟨_, walkAfter_zero⟩
    | succ count ih =>
        obtain ⟨walk, hwalk⟩ := ih (by omega) fun i hi => h i (by omega)
        obtain ⟨node, hnode, hnot⟩ := h count (by omega)
        have hcandidate : walk.candidate = (tree.preorder depth root)[count]? :=
          candidate_walkAfter hwalk (by omega)
        have hfinal : walk.isFinal = false := by
          rw [isFinal_walkAfter hwalk, hcandidate, hnode]
          exact hnot
        obtain ⟨next, hnext⟩ := (exists_advance_iff tree walk).mpr hfinal
        exact ⟨next, walkAfter_succ_eq_ok_iff.mpr ⟨walk, hwalk, hnext⟩⟩

/-- Whatever the tree, and however often the walk was advanced: its frames are the way from the
root to the candidate with all that is untried beside it, an advance moves the worklist and
fails at the end only, and the candidates are the nodes in preorder, up to the first solution. -/
theorem walk_follows_preorder (tree : SearchTree Node) (root : Node) (count : Nat) :
    (tree.walk root).worklist = .enter tree root [] ∧
    (∀ walk, tree.walkAfter root count = .ok walk →
      (∀ trail, walk.phase = .searching trail →
        trail.LeadsFrom tree root ∧ walk.depth = trail.frames.length ∧
          walk.candidate = trail.frames.head?.map (·.node)) ∧
      ((∃ next, walk.advance tree = .ok next) ↔ walk.isFinal = false) ∧
      (walk.advance tree = .error .alreadyFinal ↔ walk.isFinal = true) ∧
      (walk.advance tree).map (·.worklist) = walk.worklist.move tree ∧
      walk.advances = count ∧ walk.isFinal = walk.candidate.all tree.isSolution ∧
      ∀ depth > count, walk.candidate = (tree.preorder depth root)[count]?) ∧
    ∀ depth > count, (∃ walk, tree.walkAfter root count = .ok walk) ↔
      ∀ i < count, ∃ node, (tree.preorder depth root)[i]? = some node ∧
        tree.isSolution node = false := by
  refine ⟨worklist_walk, ?_, fun depth hdepth => exists_walkAfter_iff tree root hdepth⟩
  intro walk hwalk
  have hframes : ∀ trail, walk.phase = .searching trail →
      trail.LeadsFrom tree root ∧ walk.depth = trail.frames.length ∧
        walk.candidate = trail.frames.head?.map (·.node) := by
    intro trail htrail
    refine ⟨walkAfter_leadsFrom hwalk htrail, ?_, ?_⟩
    · rw [← trail.depth_eq, Walk.depth, htrail]
    · rw [Walk.candidate, htrail]
  have hfails : walk.advance tree = .error .alreadyFinal ↔ walk.isFinal = true := by
    rw [Walk.advance_eq_error_iff]
    simp
  exact ⟨hframes, exists_advance_iff tree walk, hfails, walk.worklist_advance tree,
    advances_walkAfter hwalk, isFinal_walkAfter hwalk, fun depth => candidate_walkAfter hwalk⟩

end SearchTree

/-- The fifth advance leaves the whole tree below a node and goes on beside it. -/
theorem halving_walk_follows_preorder :
    ∃ walk, halving.walkAfter 5 5 = .ok walk ∧ walk.depth = 3 ∧
      walk.candidate = (halving.preorder 6 5)[5]? ∧
      (halving.preorder 6 5)[5]? = some 1 ∧
      ∃ next, walk.advance halving = .ok next := by
  obtain ⟨walk, hwalk, hdepth⟩ : ∃ walk, halving.walkAfter 5 5 = .ok walk ∧ walk.depth = 3 :=
    ⟨_, rfl, rfl⟩
  obtain ⟨_, hall, _⟩ := SearchTree.walk_follows_preorder halving 5 5
  obtain ⟨_, hadvance, _, _, _, hfinal, hcandidate⟩ := hall walk hwalk
  have hentry : (halving.preorder 6 5)[5]? = some 1 := by decide
  have hnext : walk.isFinal = false := by
    rw [hfinal, hcandidate 6 (by decide), hentry]
    rfl
  exact ⟨walk, hwalk, hdepth, hcandidate 6 (by decide), hentry, hadvance.mpr hnext⟩

end QueensPuzzle.Search
