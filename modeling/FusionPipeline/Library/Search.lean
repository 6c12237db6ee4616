import Mathlib.Algebra.Order.BigOperators.Group.Finset
import Mathlib.Algebra.GroupWithZero.Nat
import Mathlib.Data.Fintype.Basic
import Mathlib.Data.List.Chain
import Mathlib.Logic.Relation

/-!
Two searches of a finite graph given by its successor lists: a worklist that marks what
it reaches, and a depth-first search with an explicit stack that either orders what it
reaches, successors first, or finds a cycle.
-/

namespace Search

open Relation

variable {Vertex : Type} (next : Vertex → List Vertex)

def Arc (first second : Vertex) : Prop :=
  second ∈ next first

def ReachedFrom (starts : List Vertex) (vertex : Vertex) : Prop :=
  ∃ start ∈ starts, ReflTransGen (Arc next) start vertex

section Weights

variable [Fintype Vertex]

def pendingCost (cost : Vertex → Nat) (pending : Vertex → Prop) [DecidablePred pending] : Nat :=
  ∑ vertex, if pending vertex then cost vertex else 0

theorem pendingCost_le (cost : Vertex → Nat) {before : Vertex → Prop} (after : Vertex → Prop)
    [DecidablePred before] [DecidablePred after]
    (fewer : ∀ vertex, after vertex → before vertex) :
    pendingCost cost after ≤ pendingCost cost before := by
  refine Finset.sum_le_sum fun vertex _ => ?_
  by_cases pending : after vertex
  · simp [pending, fewer vertex pending]
  · simp [pending]

theorem pendingCost_settle (cost : Vertex → Nat) {before : Vertex → Prop} (after : Vertex → Prop)
    [DecidablePred before] [DecidablePred after] {vertex : Vertex}
    (pending : before vertex) (settled : ¬ after vertex)
    (fewer : ∀ other, after other → before other) :
    pendingCost cost after + cost vertex ≤ pendingCost cost before := by
  classical
  have split : ∀ value : Vertex → Nat, ∑ other, value other =
      value vertex + ∑ other ∈ Finset.univ.erase vertex, value other :=
    fun value => (Finset.add_sum_erase Finset.univ value (Finset.mem_univ vertex)).symm
  rw [pendingCost, pendingCost, split, split fun other => if before other then cost other else 0]
  have rest : ∑ other ∈ Finset.univ.erase vertex, (if after other then cost other else 0) ≤
      ∑ other ∈ Finset.univ.erase vertex, (if before other then cost other else 0) := by
    refine Finset.sum_le_sum fun other _ => ?_
    by_cases left : after other
    · simp [left, fewer other left]
    · simp [left]
  simp only [pending, settled, ↓reduceIte]
  omega

end Weights

section Sweeping

variable [DecidableEq Vertex]

def sweep [Fintype Vertex] (stack : List Vertex) (reached : Vertex → Bool) : Vertex → Bool :=
  match stack with
  | [] => reached
  | vertex :: stack =>
      if reached vertex then sweep stack reached
      else sweep ((next vertex).reverse ++ stack) (Function.update reached vertex true)
termination_by
  pendingCost (fun vertex => (next vertex).length) (fun vertex => reached vertex = false) +
    pendingCost (fun _ => 1) (fun vertex => reached vertex = false) + stack.length
decreasing_by
  · simp
  · have unmarked : ¬ reached vertex = true := ‹_›
    have fewer : ∀ other, Function.update reached vertex true other = false →
        reached other = false := by
      intro other unreached
      by_cases same : other = vertex
      · simp [same] at unreached
      · simpa [same] using unreached
    have arcs := pendingCost_settle (fun vertex => (next vertex).length)
      (fun other => Function.update reached vertex true other = false)
      (Bool.eq_false_iff.mpr unmarked) (by simp) fewer
    have vertices := pendingCost_settle (fun _ : Vertex => 1)
      (fun other => Function.update reached vertex true other = false)
      (Bool.eq_false_iff.mpr unmarked) (by simp) fewer
    simp only [List.length_append, List.length_reverse, List.length_cons]
    omega

def Closed (stack : List Vertex) (reached : Vertex → Bool) : Prop :=
  ∀ vertex, reached vertex = true → ∀ successor ∈ next vertex,
    reached successor = true ∨ successor ∈ stack

theorem closed_visit {stack : List Vertex} {reached : Vertex → Bool} {vertex : Vertex}
    (closed : Closed next (vertex :: stack) reached) :
    Closed next ((next vertex).reverse ++ stack) (Function.update reached vertex true) := by
  intro other marked successor member
  by_cases same : other = vertex
  · subst same
    exact Or.inr (by simp [member])
  · rw [Function.update_of_ne same] at marked
    by_cases isVertex : successor = vertex
    · simp [isVertex]
    · rw [Function.update_of_ne isVertex]
      rcases closed other marked successor member with marked | waiting
      · exact Or.inl marked
      · exact Or.inr (by simpa [isVertex] using Or.inr waiting)

variable [Fintype Vertex]

theorem sweep_sound {stack : List Vertex} {reached : Vertex → Bool} {vertex : Vertex}
    (marked : sweep next stack reached vertex = true) :
    reached vertex = true ∨ ReachedFrom next stack vertex := by
  fun_induction sweep next stack reached with
  | case1 reached => exact Or.inl marked
  | case2 reached top stack found ih =>
      rcases ih marked with before | ⟨start, member, path⟩
      · exact Or.inl before
      · exact Or.inr ⟨start, List.mem_cons_of_mem _ member, path⟩
  | case3 reached top stack found ih =>
      rcases ih marked with before | ⟨start, member, path⟩
      · by_cases same : vertex = top
        · exact Or.inr ⟨top, List.mem_cons_self, same ▸ .refl⟩
        · rw [Function.update_of_ne same] at before
          exact Or.inl before
      · rcases List.mem_append.mp member with child | waiting
        · exact Or.inr ⟨top, List.mem_cons_self, .head (List.mem_reverse.mp child) path⟩
        · exact Or.inr ⟨start, List.mem_cons_of_mem _ waiting, path⟩

theorem sweep_complete {stack : List Vertex} {reached : Vertex → Bool}
    (closed : Closed next stack reached) :
    (∀ vertex, reached vertex = true ∨ vertex ∈ stack → sweep next stack reached vertex = true) ∧
    Closed next [] (sweep next stack reached) := by
  fun_induction sweep next stack reached with
  | case1 reached => exact ⟨by simp, closed⟩
  | case2 reached top stack found ih =>
      obtain ⟨covers, closes⟩ := ih fun vertex marked successor member => by
        rcases closed vertex marked successor member with marked | waiting
        · exact Or.inl marked
        · rcases List.mem_cons.mp waiting with same | waiting
          · exact Or.inl (same ▸ found)
          · exact Or.inr waiting
      refine ⟨fun vertex before => covers vertex ?_, closes⟩
      rcases before with marked | waiting
      · exact Or.inl marked
      · rcases List.mem_cons.mp waiting with same | waiting
        · exact Or.inl (same ▸ found)
        · exact Or.inr waiting
  | case3 reached top stack found ih =>
      obtain ⟨covers, closes⟩ := ih (closed_visit next closed)
      refine ⟨fun vertex before => covers vertex ?_, closes⟩
      by_cases same : vertex = top
      · exact Or.inl (by simp [same])
      · rcases before with marked | waiting
        · exact Or.inl (by simpa [same] using marked)
        · exact Or.inr (by simp_all)

/-- Sweeping from the starts with nothing marked marks exactly what they reach. -/
theorem sweep_iff (starts : List Vertex) (vertex : Vertex) :
    sweep next starts (fun _ => false) vertex = true ↔ ReachedFrom next starts vertex := by
  constructor
  · intro marked
    simpa using sweep_sound next marked
  · rintro ⟨start, member, path⟩
    obtain ⟨covers, closes⟩ := sweep_complete next
      (show Closed next starts (fun _ => false) by intro vertex marked; cases marked)
    induction path with
    | refl => exact covers start (Or.inr member)
    | tail _ arc ih => simpa using closes _ ih _ arc

end Sweeping

inductive Mark where
  | unvisited
  | inProgress
  | done
  deriving DecidableEq, Repr

/-- What a depth-first search has done: its marks, and what it finished, in that order. -/
structure Progress (Vertex : Type) where
  marks : Vertex → Mark
  postOrder : List Vertex

def Progress.fresh : Progress Vertex :=
  ⟨fun _ => .unvisited, []⟩

section DepthFirst

variable [DecidableEq Vertex]

def Progress.mark (progress : Progress Vertex) (vertex : Vertex) (mark : Mark) : Progress Vertex :=
  { progress with marks := Function.update progress.marks vertex mark }

@[simp] theorem Progress.mark_self (progress : Progress Vertex) (vertex : Vertex) (mark : Mark) :
    (progress.mark vertex mark).marks vertex = mark := by
  simp [Progress.mark]

theorem Progress.mark_of_ne (progress : Progress Vertex) {vertex other : Vertex} (mark : Mark)
    (different : other ≠ vertex) : (progress.mark vertex mark).marks other = progress.marks other := by
  simp [Progress.mark, different]

@[simp] theorem Progress.mark_postOrder (progress : Progress Vertex) (vertex : Vertex) (mark : Mark) :
    (progress.mark vertex mark).postOrder = progress.postOrder := rfl

theorem Progress.unvisited_of_mark (progress : Progress Vertex) {vertex other : Vertex} {mark : Mark}
    (visited : mark ≠ .unvisited) (left : (progress.mark vertex mark).marks other = .unvisited) :
    progress.marks other = .unvisited := by
  by_cases same : other = vertex
  · rw [same, mark_self] at left
    exact False.elim (visited left)
  · rwa [progress.mark_of_ne mark same] at left

/-- The search from a stack of vertices in progress, each with the position of its next
successor. It fails with the vertex a back edge points at. -/
def explore [Fintype Vertex] (stack : List (Vertex × Nat)) (progress : Progress Vertex) :
    Except Vertex (Progress Vertex) :=
  match stack with
  | [] => .ok progress
  | (vertex, position) :: stack =>
      match _ : (next vertex)[position]? with
      | some child =>
          match marked : progress.marks child with
          | .inProgress => .error child
          | .done => explore ((vertex, position + 1) :: stack) progress
          | .unvisited =>
              explore ((child, 0) :: (vertex, position + 1) :: stack) (progress.mark child .inProgress)
      | none =>
          let finished := progress.mark vertex .done
          explore stack { finished with postOrder := finished.postOrder ++ [vertex] }
termination_by
  pendingCost (fun vertex => (next vertex).length + 2)
      (fun vertex => progress.marks vertex = .unvisited) +
    (stack.map fun frame => (next frame.1).length - frame.2 + 1).sum
decreasing_by
  · have found : (next vertex)[position]? = some child := ‹_›
    have bound := (List.getElem?_eq_some_iff.mp found).1
    simp only [List.map_cons, List.sum_cons]
    omega
  · have found : (next vertex)[position]? = some child := ‹_›
    have bound := (List.getElem?_eq_some_iff.mp found).1
    have entered := pendingCost_settle (fun vertex => (next vertex).length + 2)
      (fun other => (progress.mark child .inProgress).marks other = .unvisited)
      marked (by simp) (fun other => progress.unvisited_of_mark (by decide))
    simp only [List.map_cons, List.sum_cons] at entered ⊢
    omega
  · have left := pendingCost_le (fun vertex => (next vertex).length + 2)
      (fun other => (progress.mark vertex .done).marks other = .unvisited)
      (fun other => progress.unvisited_of_mark (by decide))
    simp only [List.map_cons, List.sum_cons]
    omega

def visit [Fintype Vertex] (start : Vertex) (progress : Progress Vertex) :
    Except Vertex (Progress Vertex) :=
  if progress.marks start = .done then .ok progress
  else explore next [(start, 0)] (progress.mark start .inProgress)

def visitAll [Fintype Vertex] (starts : List Vertex) (progress : Progress Vertex) :
    Except Vertex (Progress Vertex) :=
  starts.foldlM (fun progress start => visit next start progress) progress

/-- Every successor before a frame's position is known, where a vertex on the stack is
known to the frames below it. -/
def Seen (known : Vertex → Prop) : List (Vertex × Nat) → Prop
  | [] => True
  | (vertex, position) :: below =>
      (∀ index child, index < position → (next vertex)[index]? = some child → known child) ∧
        Seen (fun child => known child ∨ child = vertex) below

omit [DecidableEq Vertex] in
theorem Seen.mono {known more : Vertex → Prop} {stack : List (Vertex × Nat)}
    (seen : Seen next known stack) (implied : ∀ vertex, known vertex → more vertex) :
    Seen next more stack := by
  induction stack generalizing known more with
  | nil => trivial
  | cons frame below ih =>
      refine ⟨fun index child before at_ => implied child (seen.1 index child before at_),
        ih seen.2 ?_⟩
      rintro vertex (isKnown | same)
      · exact Or.inl (implied vertex isKnown)
      · exact Or.inr same

def SuccessorsFirst (order : List Vertex) : Prop :=
  ∀ before vertex after, order = before ++ vertex :: after → ∀ child ∈ next vertex, child ∈ before

/-- What holds at every turn of the search: the marks tell what is finished and what is on
the stack, each frame was entered from the one below it, and what is finished is in order. -/
structure Exploring (stack : List (Vertex × Nat)) (progress : Progress Vertex) : Prop where
  done_iff : ∀ vertex, progress.marks vertex = .done ↔ vertex ∈ progress.postOrder
  open_iff : ∀ vertex, progress.marks vertex = .inProgress ↔ vertex ∈ stack.map Prod.fst
  nodup : progress.postOrder.Nodup
  stackNodup : (stack.map Prod.fst).Nodup
  ordered : SuccessorsFirst next progress.postOrder
  linked : stack.IsChain fun above below => Arc next below.1 above.1
  seen : Seen next (fun vertex => vertex ∈ progress.postOrder) stack

variable {next}
variable {stack : List (Vertex × Nat)} {progress : Progress Vertex} {vertex child : Vertex}
variable {position : Nat}

omit [DecidableEq Vertex] in
theorem linked_replace {first second : Vertex × Nat} (same : first.1 = second.1)
    (linked : (first :: stack).IsChain fun above below => Arc next below.1 above.1) :
    (second :: stack).IsChain fun above below => Arc next below.1 above.1 := by
  cases stack with
  | nil => exact List.isChain_singleton second
  | cons below stack =>
      rw [List.isChain_cons_cons] at linked ⊢
      exact ⟨same ▸ linked.1, linked.2⟩

omit [DecidableEq Vertex] in
theorem Exploring.skip (exploring : Exploring next ((vertex, position) :: stack) progress)
    (found : (next vertex)[position]? = some child) (finished : progress.marks child = .done) :
    Exploring next ((vertex, position + 1) :: stack) progress where
  done_iff := exploring.done_iff
  open_iff := exploring.open_iff
  nodup := exploring.nodup
  stackNodup := exploring.stackNodup
  ordered := exploring.ordered
  linked := linked_replace (rfl : (vertex, position).1 = vertex) exploring.linked
  seen := by
    refine ⟨fun index other before at_ => ?_, exploring.seen.2⟩
    rcases Nat.lt_or_eq_of_le (Nat.le_of_lt_succ before) with earlier | rfl
    · exact exploring.seen.1 index other earlier at_
    · obtain rfl := Option.some.inj (found.symm.trans at_)
      exact (exploring.done_iff child).mp finished

theorem Exploring.enter (exploring : Exploring next ((vertex, position) :: stack) progress)
    (found : (next vertex)[position]? = some child) (unvisited : progress.marks child = .unvisited) :
    Exploring next ((child, 0) :: (vertex, position + 1) :: stack) (progress.mark child .inProgress) where
  done_iff := by
    intro other
    by_cases same : other = child
    · subst same
      simp [← exploring.done_iff, unvisited]
    · rw [progress.mark_of_ne _ same]
      exact exploring.done_iff other
  open_iff := by
    intro other
    by_cases same : other = child
    · subst same
      simp
    · rw [progress.mark_of_ne _ same, exploring.open_iff]
      simp [same]
  nodup := exploring.nodup
  stackNodup := by
    have fresh := mt (exploring.open_iff child).mpr (by simp [unvisited])
    exact List.nodup_cons.mpr ⟨fresh, exploring.stackNodup⟩
  ordered := exploring.ordered
  linked := List.isChain_cons_cons.mpr
    ⟨List.mem_of_getElem? found, linked_replace (rfl : (vertex, position).1 = vertex) exploring.linked⟩
  seen := by
    refine ⟨by simp, fun index other before at_ => ?_, ?_⟩
    · rcases Nat.lt_or_eq_of_le (Nat.le_of_lt_succ before) with earlier | rfl
      · exact Or.inl (exploring.seen.1 index other earlier at_)
      · exact Or.inr (Option.some.inj (at_.symm.trans found))
    · refine exploring.seen.2.mono next ?_
      rintro other (finished | same)
      · exact Or.inl (Or.inl finished)
      · exact Or.inr same

theorem Exploring.leave (exploring : Exploring next ((vertex, position) :: stack) progress)
    (noMore : (next vertex)[position]? = none) :
    Exploring next stack { progress.mark vertex .done with postOrder := progress.postOrder ++ [vertex] } := by
  have notDone : vertex ∉ progress.postOrder := by
    rw [← exploring.done_iff, (exploring.open_iff vertex).mpr (by simp)]
    decide
  have notBelow := (List.nodup_cons.mp exploring.stackNodup).1
  constructor
  · intro other
    by_cases same : other = vertex
    · simp [same]
    · simp [progress.mark_of_ne _ same, exploring.done_iff, same]
  · intro other
    by_cases same : other = vertex
    · subst same
      simpa using notBelow
    · simp only [progress.mark_of_ne _ same, exploring.open_iff]
      simp [same]
  · exact List.nodup_append.mpr ⟨exploring.nodup, by simp,
      by simpa using fun other member (same : other = vertex) => notDone (same ▸ member)⟩
  · exact (List.nodup_cons.mp exploring.stackNodup).2
  · intro before other after split successor member
    rcases List.eq_nil_or_concat after with rfl | ⟨rest, last, rfl⟩
    · obtain ⟨rfl, same⟩ := List.append_inj' split rfl
      obtain rfl := (List.cons.inj same).1
      obtain ⟨index, bound, rfl⟩ := List.getElem_of_mem member
      refine exploring.seen.1 index _ ?_ (List.getElem?_eq_getElem bound)
      exact Nat.lt_of_lt_of_le bound (List.getElem?_eq_none_iff.mp noMore)
    · rw [List.concat_eq_append, ← List.cons_append, ← List.append_assoc] at split
      exact exploring.ordered before other rest (List.append_inj' split rfl).1 successor member
  · exact exploring.linked.tail
  · refine exploring.seen.2.mono next ?_
    rintro other (finished | same)
    · exact List.mem_append_left _ finished
    · simp [same]

omit [DecidableEq Vertex] in
theorem stack_leads_to_top
    (linked : ((vertex, position) :: stack).IsChain fun above below => Arc next below.1 above.1)
    {other : Vertex} (member : other ∈ ((vertex, position) :: stack).map Prod.fst) :
    ReflTransGen (Arc next) other vertex := by
  induction stack generalizing vertex position with
  | nil =>
      simp only [List.map_cons, List.map_nil, List.mem_singleton] at member
      exact member ▸ .refl
  | cons below stack ih =>
      rw [List.isChain_cons_cons] at linked
      rcases List.mem_cons.mp member with rfl | deeper
      · exact .refl
      · exact (@ih below.1 below.2 linked.2 deeper).tail linked.1

variable (next) in
def Outcome (starts : List Vertex) (before : Progress Vertex) :
    Except Vertex (Progress Vertex) → Prop
  | .ok after => Exploring next [] after ∧ before.postOrder ⊆ after.postOrder ∧
      starts ⊆ after.postOrder ∧
      ∀ vertex ∈ after.postOrder, vertex ∈ before.postOrder ∨ ReachedFrom next starts vertex
  | .error vertex => ReachedFrom next starts vertex ∧ TransGen (Arc next) vertex vertex

omit [DecidableEq Vertex] in
theorem Outcome.widen {starts wider : List Vertex} {before earlier : Progress Vertex}
    {result : Except Vertex (Progress Vertex)} (outcome : Outcome next starts before result)
    (grew : earlier.postOrder ⊆ before.postOrder)
    (finished : ∀ vertex ∈ before.postOrder, vertex ∈ earlier.postOrder ∨ ReachedFrom next wider vertex)
    (covered : ∀ vertex ∈ wider, vertex ∈ starts ∨ vertex ∈ before.postOrder)
    (reached : ∀ vertex ∈ starts, ReachedFrom next wider vertex) :
    Outcome next wider earlier result := by
  have further : ∀ {vertex}, ReachedFrom next starts vertex → ReachedFrom next wider vertex := by
    rintro vertex ⟨start, member, path⟩
    obtain ⟨first, firstMember, firstPath⟩ := reached start member
    exact ⟨first, firstMember, firstPath.trans path⟩
  cases result with
  | error vertex => exact ⟨further outcome.1, outcome.2⟩
  | ok after =>
      obtain ⟨exploring, kept, all, only⟩ := outcome
      refine ⟨exploring, fun _ member => kept (grew member), fun vertex member => ?_,
        fun vertex member => ?_⟩
      · rcases covered vertex member with isStart | done
        · exact all isStart
        · exact kept done
      · rcases only vertex member with done | far
        · exact finished vertex done
        · exact Or.inr (further far)

variable [Fintype Vertex]

theorem explore_outcome (exploring : Exploring next stack progress) :
    Outcome next (stack.map Prod.fst) progress (explore next stack progress) := by
  fun_induction explore next stack progress with
  | case1 progress => exact ⟨exploring, fun _ member => member, by simp, fun _ => Or.inl⟩
  | case2 progress vertex position stack child found marked =>
      have onStack := (exploring.open_iff child).mp marked
      have path := stack_leads_to_top exploring.linked onStack
      exact ⟨⟨child, onStack, .refl⟩, .tail' path (List.mem_of_getElem? found)⟩
  | case3 progress vertex position stack child found marked ih =>
      exact ih (exploring.skip found marked)
  | case4 progress vertex position stack child found marked ih =>
      refine (ih (exploring.enter found marked)).widen (fun _ member => member)
        (fun _ => Or.inl) ?_ ?_
      · intro other member
        exact Or.inl (List.mem_cons_of_mem _ member)
      · intro other member
        rcases List.mem_cons.mp member with rfl | below
        · exact ⟨vertex, by simp, .single (List.mem_of_getElem? found)⟩
        · exact ⟨other, below, .refl⟩
  | case5 progress vertex position stack noMore finished ih =>
      refine (ih (exploring.leave noMore)).widen (List.subset_append_left _ _) ?_ ?_ ?_
      · intro other member
        rcases List.mem_append.mp member with done | last
        · exact Or.inl done
        · exact Or.inr ⟨vertex, by simp, List.mem_singleton.mp last ▸ .refl⟩
      · intro other member
        rcases List.mem_cons.mp member with same | below
        · exact Or.inr (by simp [same])
        · exact Or.inl below
      · intro other member
        exact ⟨other, List.mem_cons_of_mem _ member, .refl⟩

theorem visit_outcome (exploring : Exploring next [] progress) (start : Vertex) :
    Outcome next [start] progress (visit next start progress) := by
  rw [visit]
  split
  next finished =>
    have member := (exploring.done_iff start).mp finished
    exact ⟨exploring, fun _ member => member, by simpa using member, fun _ => Or.inl⟩
  next unfinished =>
    have closed : progress.marks start ≠ .inProgress := by simp [exploring.open_iff]
    suffices opened : Exploring next [(start, 0)] (progress.mark start .inProgress) from
      explore_outcome opened
    constructor
    · intro other
      by_cases same : other = start
      · simpa [same] using mt (exploring.done_iff start).mpr unfinished
      · rw [progress.mark_of_ne _ same]
        exact exploring.done_iff other
    · intro other
      by_cases same : other = start
      · simp [same]
      · simp [progress.mark_of_ne _ same, exploring.open_iff, same]
    · exact exploring.nodup
    · simp
    · exact exploring.ordered
    · exact List.isChain_singleton _
    · exact ⟨by simp, trivial⟩

theorem visitAll_outcome (exploring : Exploring next [] progress) (starts : List Vertex) :
    Outcome next starts progress (visitAll next starts progress) := by
  induction starts generalizing progress with
  | nil => exact ⟨exploring, fun _ member => member, by simp, fun _ => Or.inl⟩
  | cons start starts ih =>
      have first := visit_outcome exploring start
      rw [visitAll, List.foldlM_cons]
      cases result : visit next start progress with
      | error vertex =>
          rw [result] at first
          obtain ⟨⟨reaching, member, path⟩, cycle⟩ := first
          exact ⟨⟨reaching, by simp_all, path⟩, cycle⟩
      | ok after =>
          rw [result] at first
          obtain ⟨exploringAfter, grew, all, only⟩ := first
          refine (ih exploringAfter).widen grew ?_ ?_ ?_
          · intro vertex member
            rcases only vertex member with done | ⟨reaching, isStart, path⟩
            · exact Or.inl done
            · exact Or.inr ⟨reaching, by simp_all, path⟩
          · intro vertex member
            rcases List.mem_cons.mp member with same | later
            · exact Or.inr (all (by simp [same]))
            · exact Or.inl later
          · intro vertex member
            exact ⟨vertex, List.mem_cons_of_mem _ member, .refl⟩

omit [DecidableEq Vertex] [Fintype Vertex] in
theorem exploring_fresh : Exploring next [] (Progress.fresh : Progress Vertex) where
  done_iff := by simp [Progress.fresh]
  open_iff := by simp [Progress.fresh]
  nodup := by simp [Progress.fresh]
  stackNodup := by simp
  ordered := by simp [SuccessorsFirst, Progress.fresh]
  linked := List.isChain_nil
  seen := trivial

omit [DecidableEq Vertex] [Fintype Vertex] in
theorem SuccessorsFirst.leads_before {order before after : List Vertex} {vertex other : Vertex}
    (ordered : SuccessorsFirst next order) (split : order = before ++ vertex :: after)
    (path : TransGen (Arc next) vertex other) : other ∈ before := by
  induction path with
  | single arc => exact ordered before vertex after split _ arc
  | tail _ arc ih =>
      obtain ⟨first, second, rfl⟩ := List.append_of_mem ih
      have member := ordered first _ (second ++ vertex :: after) (by simp [split]) _ arc
      exact List.mem_append_left _ member

omit [DecidableEq Vertex] [Fintype Vertex] in
theorem SuccessorsFirst.acyclic {order : List Vertex} (ordered : SuccessorsFirst next order)
    (nodup : order.Nodup) (member : vertex ∈ order) : ¬ TransGen (Arc next) vertex vertex := by
  intro cycle
  obtain ⟨before, after, rfl⟩ := List.append_of_mem member
  have again := ordered.leads_before rfl cycle
  exact (List.nodup_append.mp nodup).2.2 _ again _ List.mem_cons_self rfl

/-- A search that ends well finished exactly what the starts reach, successors first. -/
theorem visitAll_ok {starts : List Vertex} {after : Progress Vertex}
    (ended : visitAll next starts Progress.fresh = .ok after) :
    after.postOrder.Nodup ∧ SuccessorsFirst next after.postOrder ∧
      ∀ vertex, vertex ∈ after.postOrder ↔ ReachedFrom next starts vertex := by
  have outcome := visitAll_outcome (exploring_fresh : Exploring next [] .fresh) starts
  rw [ended] at outcome
  obtain ⟨exploring, _, all, only⟩ := outcome
  refine ⟨exploring.nodup, exploring.ordered, fun vertex => ⟨fun member => ?_, ?_⟩⟩
  · simpa [Progress.fresh] using only vertex member
  · rintro ⟨start, member, path⟩
    rcases reflTransGen_iff_eq_or_transGen.mp path with same | far
    · exact same ▸ all member
    · obtain ⟨before, rest, split⟩ := List.append_of_mem (all member)
      rw [split]
      exact List.mem_append_left _ (exploring.ordered.leads_before split far)

/-- It ends well exactly when the starts reach no cycle. -/
theorem visitAll_ok_iff (starts : List Vertex) :
    (∃ after, visitAll next starts Progress.fresh = .ok after) ↔
      ∀ vertex, ReachedFrom next starts vertex → ¬ TransGen (Arc next) vertex vertex := by
  constructor
  · rintro ⟨after, ended⟩ vertex reached
    obtain ⟨nodup, ordered, only⟩ := visitAll_ok ended
    exact ordered.acyclic nodup ((only vertex).mpr reached)
  · intro acyclic
    have outcome := visitAll_outcome (exploring_fresh : Exploring next [] .fresh) starts
    cases result : visitAll next starts Progress.fresh with
    | ok after => exact ⟨after, rfl⟩
    | error vertex =>
        rw [result] at outcome
        exact False.elim (acyclic vertex outcome.1 outcome.2)

end DepthFirst

end Search
