/-! # Priority queues

A leftist heap over a comparison that is passed to each operation. The rank of
a node is the length of its right spine, so that merging walks two short paths.
-/

namespace QueensPuzzle.Search

inductive Queue (α : Type) where
  | empty
  | node (rank : Nat) (top : α) (left right : Queue α)

namespace Queue

variable {α β : Type}

def size : Queue α → Nat
  | .empty => 0
  | .node _ _ left right => left.size + right.size + 1

def rank : Queue α → Nat
  | .empty => 0
  | .node rank _ _ _ => rank

/-- The elements, the top first and each side in its own order. -/
def toList : Queue α → List α
  | .empty => []
  | .node _ top left right => top :: (left.toList ++ right.toList)

/-- Puts the side with the shorter spine on the right. -/
def join (top : α) (a b : Queue α) : Queue α :=
  if b.rank ≤ a.rank then .node (b.rank + 1) top a b else .node (a.rank + 1) top b a

def merge (before : α → α → Bool) : Queue α → Queue α → Queue α
  | .empty, b => b
  | .node rank x left right, .empty => .node rank x left right
  | .node i x xl xr, .node j y yl yr =>
      if before x y then join x xl (merge before xr (.node j y yl yr))
      else join y yl (merge before (.node i x xl xr) yr)
termination_by a b => a.size + b.size
decreasing_by all_goals simp only [size]; omega

def insert (before : α → α → Bool) (a : α) (queue : Queue α) : Queue α :=
  merge before (.node 1 a .empty .empty) queue

theorem size_join (top : α) (a b : Queue α) : (join top a b).size = a.size + b.size + 1 := by
  unfold join
  split
  · rfl
  · simp only [size]; omega

theorem size_merge (before : α → α → Bool) (a b : Queue α) :
    (merge before a b).size = a.size + b.size := by
  fun_induction merge before a b with
  | case1 => simp [size]
  | case2 => simp [size]
  | case3 _ _ _ _ _ _ _ _ _ ih => simp only [size_join, ih, size]; omega
  | case4 _ _ _ _ _ _ _ _ _ ih => simp only [size_join, ih, size]; omega

theorem toList_join_perm (top : α) (a b : Queue α) :
    (join top a b).toList.Perm (top :: (a.toList ++ b.toList)) := by
  unfold join
  split
  · rfl
  · exact List.perm_append_comm.cons top

/-- Merging loses nothing and adds nothing. -/
theorem toList_merge_perm (before : α → α → Bool) (a b : Queue α) :
    (merge before a b).toList.Perm (a.toList ++ b.toList) := by
  fun_induction merge before a b with
  | case1 => rfl
  | case2 => simp [toList]
  | case3 i x xl xr j y yl yr _ ih =>
      refine (toList_join_perm _ _ _).trans ?_
      simp only [toList, List.cons_append, List.append_assoc] at ih ⊢
      exact (ih.append_left xl.toList).cons x
  | case4 i x xl xr j y yl yr _ ih =>
      refine (toList_join_perm _ _ _).trans ?_
      have split : ((Queue.node i x xl xr).toList ++ y :: (yl.toList ++ yr.toList)).Perm
          (y :: (yl.toList ++ ((Queue.node i x xl xr).toList ++ yr.toList))) := by
        refine List.perm_middle.trans (List.Perm.cons y ?_)
        rw [← List.append_assoc, ← List.append_assoc]
        exact List.perm_append_comm.append_right yr.toList
      exact ((ih.append_left yl.toList).cons y).trans split.symm

theorem toList_insert_perm (before : α → α → Bool) (a : α) (queue : Queue α) :
    (queue.insert before a).toList.Perm (a :: queue.toList) :=
  toList_merge_perm before (.node 1 a .empty .empty) queue

/-- The first element in order that `accept` takes, as `accept` returns it, with
the queue behind it. The elements in front of it are dropped. -/
def popAccepted (before : α → α → Bool) (accept : α → Option β) :
    Queue α → Option (β × Queue α)
  | .empty => none
  | .node _ top left right =>
      let rest := merge before left right
      match accept top with
      | some b => some (b, rest)
      | none => popAccepted before accept rest
termination_by queue => queue.size
decreasing_by simp only [size_merge, size]; omega

theorem popAccepted_eq_none_iff (before : α → α → Bool) (accept : α → Option β) (queue : Queue α) :
    queue.popAccepted before accept = none ↔ ∀ a ∈ queue.toList, accept a = none := by
  fun_induction popAccepted before accept queue with
  | case1 => simp [toList]
  | case2 rank top left right rest b h => simp [toList, h]
  | case3 rank top left right rest h ih =>
      have same (a : α) := (toList_merge_perm before left right).mem_iff (a := a)
      simp only [ih, rest, same, toList, List.mem_cons, forall_eq_or_imp, h, true_and]

/-- The element that is popped was accepted, those dropped in front of it were not, and all
others stay in the queue. -/
theorem exists_of_popAccepted_eq_some {before : α → α → Bool} {accept : α → Option β}
    {queue rest : Queue α} {b : β} (h : queue.popAccepted before accept = some (b, rest)) :
    ∃ dropped a, accept a = some b ∧ (∀ d ∈ dropped, accept d = none) ∧
      queue.toList.Perm (dropped ++ a :: rest.toList) := by
  fun_induction popAccepted before accept queue with
  | case1 => simp at h
  | case2 rank top left right merged b' haccept =>
      obtain ⟨rfl, rfl⟩ : b' = b ∧ merged = rest := by simpa using h
      refine ⟨[], top, haccept, by simp, ?_⟩
      exact (toList_merge_perm before left right).symm.cons top
  | case3 rank top left right merged hrefuse ih =>
      obtain ⟨dropped, a, ha, hdropped, hperm⟩ := ih h
      refine ⟨top :: dropped, a, ha, ?_, ?_⟩
      · simpa [hrefuse] using hdropped
      · have hmerged := (toList_merge_perm before left right).symm.trans hperm
        exact hmerged.cons top

end Queue

end QueensPuzzle.Search
