import Mathlib.Data.List.Perm.Basic

/-!
Depth-first service of a growing agenda: the tasks a visit gives rise to are served right
after it, before the tasks that were already waiting. A visit may halt everything.
-/

namespace DepthFirst

/-- How a task is served. `serve` is told how many visits came before, and acts on a world
of its own. -/
structure Service (Task Visit World : Type) where
  serve : Nat → Task → World → Visit × World
  task : Visit → Task
  number : Visit → Nat
  branches : Visit → List Task
  halts : Visit → Bool
  task_serve : ∀ count given world, task (serve count given world).1 = given
  number_serve : ∀ count given world, number (serve count given world).1 = count

section Serving

variable {Task Visit World : Type}

/-- The visits of an agenda in order, the world after them, and whether the last one
halted. -/
inductive Served (service : Service Task Visit World) :
    List Task → Nat → World → List Visit → World → Bool → Prop where
  | idle (count : Nat) (world : World) : Served service [] count world [] world false
  | onward {given : Task} {rest : List Task} {count : Nat} {world next last : World}
      {visit : Visit} {visits : List Visit} {halted : Bool}
      (serves : service.serve count given world = (visit, next))
      (goesOn : service.halts visit = false)
      (after : Served service (service.branches visit ++ rest) (count + 1) next visits last halted) :
      Served service (given :: rest) count world (visit :: visits) last halted
  | halted {given : Task} {rest : List Task} {count : Nat} {world last : World} {visit : Visit}
      (serves : service.serve count given world = (visit, last))
      (halts : service.halts visit = true) :
      Served service (given :: rest) count world [visit] last true

theorem task_of_serves {service : Service Task Visit World} {count : Nat} {given : Task}
    {world next : World} {visit : Visit}
    (serves : service.serve count given world = (visit, next)) : service.task visit = given := by
  have same := service.task_serve count given world
  rwa [serves] at same

theorem number_of_serves (service : Service Task Visit World) {count : Nat} {given : Task}
    {world next : World} {visit : Visit}
    (serves : service.serve count given world = (visit, next)) : service.number visit = count := by
  have same := service.number_serve count given world
  rwa [serves] at same

namespace Served

variable {service : Service Task Visit World} {agenda others : List Task} {count : Nat}
  {world middle last : World} {visits more : List Visit} {halted : Bool}

theorem append (first : Served service agenda count world visits middle false)
    (second : Served service others (count + visits.length) middle more last halted) :
    Served service (agenda ++ others) count world (visits ++ more) last halted := by
  generalize isFalse : false = ended at first
  induction first with
  | idle count world => simpa using second
  | onward serves goesOn _ ih =>
      rw [List.cons_append, List.cons_append]
      refine .onward serves goesOn ?_
      rw [← List.append_assoc]
      refine ih ?_ isFalse
      simpa [Nat.add_assoc, Nat.add_comm 1] using second
  | halted serves halts => cases isFalse

theorem append_halted (first : Served service agenda count world visits last true)
    (others : List Task) : Served service (agenda ++ others) count world visits last true := by
  generalize isTrue : true = ended at first
  induction first with
  | idle count world => cases isTrue
  | onward serves goesOn _ ih =>
      rw [List.cons_append]
      refine .onward serves goesOn ?_
      rw [← List.append_assoc]
      exact ih isTrue
  | halted serves halts => exact .halted serves halts

theorem unique {other : World} {ended : Bool}
    (served : Served service agenda count world visits last halted)
    (again : Served service agenda count world more other ended) :
    more = visits ∧ other = last ∧ ended = halted := by
  induction served generalizing more with
  | idle =>
      cases again with
      | idle => exact ⟨rfl, rfl, rfl⟩
  | onward serves goesOn _ ih =>
      cases again with
      | onward servesToo _ after =>
          obtain ⟨rfl, rfl⟩ := Prod.mk.inj (servesToo.symm.trans serves)
          obtain ⟨rfl, rfl, rfl⟩ := ih after
          exact ⟨rfl, rfl, rfl⟩
      | halted servesToo halts =>
          obtain ⟨rfl, _⟩ := Prod.mk.inj (servesToo.symm.trans serves)
          rw [goesOn] at halts
          cases halts
  | halted serves halts =>
      cases again with
      | onward servesToo goesOn _ =>
          obtain ⟨rfl, _⟩ := Prod.mk.inj (servesToo.symm.trans serves)
          rw [halts] at goesOn
          cases goesOn
      | halted servesToo _ =>
          obtain ⟨rfl, rfl⟩ := Prod.mk.inj (servesToo.symm.trans serves)
          exact ⟨rfl, rfl, rfl⟩

theorem branch {given : Task} {visit : Visit} {next : World}
    (serves : service.serve count given world = (visit, next)) (goesOn : service.halts visit = false)
    (after : Served service (service.branches visit) (count + 1) next visits last halted) :
    Served service [given] count world (visit :: visits) last halted :=
  .onward serves goesOn (by simpa using after)

theorem halts_iff (served : Served service agenda count world visits last halted) :
    halted = true ↔ ∃ visit ∈ visits, service.halts visit = true := by
  induction served with
  | idle => simp
  | onward serves goesOn _ ih => simp [ih, goesOn]
  | halted serves halts => simp [halts]

theorem halts_last (served : Served service agenda count world visits last halted)
    {before after : List Visit} {visit : Visit} (split : visits = before ++ visit :: after)
    (halts : service.halts visit = true) : after = [] := by
  induction served generalizing before with
  | idle => simp at split
  | onward serves goesOn _ ih =>
      cases before with
      | nil =>
          obtain ⟨rfl, -⟩ := List.cons.inj split
          rw [goesOn] at halts
          cases halts
      | cons first before => exact ih (List.cons.inj split).2
  | halted serves _ =>
      cases before with
      | nil => exact (List.cons.inj split).2.symm
      | cons first before => simp at split

/-- Unless it halts, an agenda and all that follows from it is served, each task once. -/
theorem tasks_perm (served : Served service agenda count world visits last halted)
    (goesOn : halted = false) :
    (visits.map service.task).Perm (agenda ++ visits.flatMap service.branches) := by
  induction served with
  | idle => simp
  | onward serves _ _ ih =>
      rw [List.map_cons, task_of_serves serves, List.flatMap_cons, List.cons_append]
      refine List.Perm.cons _ ((ih goesOn).trans ?_)
      rw [← List.append_assoc]
      exact List.perm_append_comm.append_right _
  | halted => cases goesOn

/-- A visit's task was on the agenda, or follows from an earlier visit that went on. -/
theorem origin (served : Served service agenda count world visits last halted) :
    ∀ before visit after, visits = before ++ visit :: after → service.task visit ∈ agenda ∨
      ∃ parent ∈ before, service.halts parent = false ∧
        service.task visit ∈ service.branches parent := by
  induction served with
  | idle => simp
  | onward serves goesOn _ ih =>
      intro before visit after split
      cases before with
      | nil =>
          obtain ⟨rfl, -⟩ := List.cons.inj split
          exact .inl (task_of_serves serves ▸ List.mem_cons_self)
      | cons head before =>
          obtain ⟨rfl, others⟩ := List.cons.inj split
          rcases ih before visit after others with waiting | ⟨parent, member, found⟩
          · rcases List.mem_append.mp waiting with branches | waiting
            · exact .inr ⟨_, List.mem_cons_self, goesOn, branches⟩
            · exact .inl (List.mem_cons_of_mem _ waiting)
          · exact .inr ⟨parent, List.mem_cons_of_mem _ member, found⟩
  | halted serves _ =>
      intro before visit after split
      cases before with
      | nil =>
          obtain ⟨rfl, -⟩ := List.cons.inj split
          exact .inl (task_of_serves serves ▸ List.mem_cons_self)
      | cons head before => simp at split

theorem numbered (served : Served service agenda count world visits last halted) :
    ∀ before visit after, visits = before ++ visit :: after →
      service.number visit = count + before.length := by
  induction served with
  | idle => simp
  | onward serves _ _ ih =>
      intro before visit after split
      cases before with
      | nil =>
          obtain ⟨rfl, -⟩ := List.cons.inj split
          exact number_of_serves _ serves
      | cons head before =>
          have shifted := ih before visit after (List.cons.inj split).2
          rw [shifted, List.length_cons, Nat.add_assoc, Nat.add_comm 1]
  | halted serves _ =>
      intro before visit after split
      cases before with
      | nil =>
          obtain ⟨rfl, -⟩ := List.cons.inj split
          exact number_of_serves _ serves
      | cons head before => simp at split

/-- What holds of every visit of a good task, with all its branches good, holds of every
visit of a good agenda. -/
theorem invariant (good : Task → Prop) (holds : Visit → Prop)
    (each : ∀ count given world, good given → holds (service.serve count given world).1 ∧
      ∀ task ∈ service.branches (service.serve count given world).1, good task)
    (served : Served service agenda count world visits last halted)
    (initially : ∀ task ∈ agenda, good task) : ∀ visit ∈ visits, holds visit := by
  induction served with
  | idle => simp
  | @onward given rest count world next last first visits halted serves _ _ ih =>
      have first := each count given world (initially given List.mem_cons_self)
      rw [serves] at first
      refine List.forall_mem_cons.mpr ⟨first.1, ih fun task member => ?_⟩
      rcases List.mem_append.mp member with branch | waiting
      · exact first.2 task branch
      · exact initially task (List.mem_cons_of_mem _ waiting)
  | @halted given rest count world last first serves _ =>
      have first := each count given world (initially given List.mem_cons_self)
      rw [serves] at first
      exact List.forall_mem_cons.mpr ⟨first.1, by simp⟩

theorem keeps (good : World → Prop)
    (each : ∀ count given world, good world → good (service.serve count given world).2)
    (served : Served service agenda count world visits last halted) (initially : good world) :
    good last := by
  induction served with
  | idle => exact initially
  | @onward given _ count world _ _ _ _ _ serves _ _ ih =>
      have next := each count given world initially
      rw [serves] at next
      exact ih next
  | @halted given _ count world _ _ serves _ =>
      have next := each count given world initially
      rwa [serves] at next

/-- What holds of a visit in the world it leaves, and goes on holding in every later one,
holds of all visits in the last world. -/
theorem lasting (holds : World → Visit → Prop)
    (made : ∀ count given world,
      holds (service.serve count given world).2 (service.serve count given world).1)
    (kept : ∀ visit count given world, holds world visit →
      holds (service.serve count given world).2 visit)
    (served : Served service agenda count world visits last halted) :
    ∀ visit ∈ visits, holds last visit := by
  induction served with
  | idle => simp
  | @onward given _ count world next last first _ _ serves _ after ih =>
      have here : holds next first := by
        have made := made count given world
        rwa [serves] at made
      exact List.forall_mem_cons.mpr ⟨after.keeps (holds · first) (kept first) here, ih⟩
  | @halted given _ count world _ _ serves _ =>
      have here := made count given world
      rw [serves] at here
      exact List.forall_mem_cons.mpr ⟨here, by simp⟩

end Served

end Serving

end DepthFirst
