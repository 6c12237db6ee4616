import Mathlib
import FusionPipeline.Library.Transition

/-!
A bounded queue from one sender to several receivers. A receiver handles one item at a time, and may
die with it in hand.
-/

namespace Channel

variable {Item Outcome : Type}

section Steps

inductive Receiver (Item : Type) where
  | waiting
  | busy (item : Item)
  | ended
  | died (item : Item)
  deriving DecidableEq, Repr

namespace Receiver

def held : Receiver Item → Option Item
  | busy item => some item
  | died item => some item
  | waiting => none
  | ended => none

def listens : Receiver Item → Bool
  | waiting => true
  | busy _ => true
  | ended => false
  | died _ => false

def weight : Receiver Item → Nat
  | waiting => 1
  | busy _ => 3
  | ended => 0
  | died _ => 0

end Receiver

/-- The queue and its receivers, with all that was sent, taken and handled so far, in order. -/
structure State (Item Outcome : Type) where
  capacity : Nat
  closed : Bool
  queue : List Item
  receivers : List (Receiver Item)
  sent : List Item
  taken : List Item
  handled : List (Item × Outcome)

def State.new (capacity receivers : Nat) : State Item Outcome :=
  ⟨capacity, false, [], List.replicate receivers .waiting, [], [], []⟩

inductive Event (Item Outcome : Type) where
  | send (item : Item)
  | close
  | take (index : Nat)
  | finish (index : Nat) (outcome : Outcome)
  | die (index : Nat)
  | leave (index : Nat)

def State.connected (state : State Item Outcome) : Bool :=
  state.receivers.any Receiver.listens

def step (state : State Item Outcome) : Event Item Outcome → Option (State Item Outcome)
  | .send item =>
      if state.closed = false ∧ state.queue.length < state.capacity ∧ state.connected = true then
        some { state with queue := state.queue ++ [item], sent := state.sent ++ [item] }
      else none
  | .close => if state.closed then none else some { state with closed := true }
  | .take index =>
      match state.receivers[index]?, state.queue with
      | some .waiting, item :: queue =>
          some { state with
            queue
            receivers := state.receivers.set index (.busy item)
            taken := state.taken ++ [item] }
      | _, _ => none
  | .finish index outcome =>
      match state.receivers[index]? with
      | some (.busy item) =>
          some { state with
            receivers := state.receivers.set index .waiting
            handled := state.handled ++ [(item, outcome)] }
      | _ => none
  | .die index =>
      match state.receivers[index]? with
      | some (.busy item) => some { state with receivers := state.receivers.set index (.died item) }
      | _ => none
  | .leave index =>
      match state.receivers[index]?, state.queue, state.closed with
      | some .waiting, [], true => some { state with receivers := state.receivers.set index .ended }
      | _, _, _ => none

end Steps

section Inversion

variable {state next : State Item Outcome} {item : Item} {outcome : Outcome} {index : Nat}

theorem send_iff : step state (.send item) = some next ↔
    state.closed = false ∧ state.queue.length < state.capacity ∧ state.connected = true ∧
      next = { state with queue := state.queue ++ [item], sent := state.sent ++ [item] } := by
  rw [step]
  split
  next ready =>
    obtain ⟨opened, room, connected⟩ := ready
    simp [opened, room, connected, eq_comm]
  next notReady =>
    simp only [reduceCtorEq, false_iff]
    rintro ⟨opened, room, connected, _⟩
    exact notReady ⟨opened, room, connected⟩

theorem close_iff : step state .close = some next ↔
    state.closed = false ∧ next = { state with closed := true } := by
  rw [step]
  cases state.closed <;> simp [eq_comm]

theorem take_iff : step state (.take index) = some next ↔
    ∃ item queue, state.receivers[index]? = some .waiting ∧ state.queue = item :: queue ∧
      next = { state with
        queue
        receivers := state.receivers.set index (.busy item)
        taken := state.taken ++ [item] } := by
  rw [step]
  split
  next item queue waiting queued =>
    simp only [Option.some.injEq, waiting, queued, true_and, List.cons.injEq]
    constructor
    · rintro rfl
      exact ⟨item, queue, ⟨rfl, rfl⟩, rfl⟩
    · rintro ⟨_, _, ⟨rfl, rfl⟩, rfl⟩
      rfl
  next other =>
    simp only [reduceCtorEq, false_iff]
    rintro ⟨item, queue, waiting, queued, _⟩
    exact other item queue waiting queued

theorem finish_iff : step state (.finish index outcome) = some next ↔
    ∃ item, state.receivers[index]? = some (.busy item) ∧
      next = { state with
        receivers := state.receivers.set index .waiting
        handled := state.handled ++ [(item, outcome)] } := by
  rw [step]
  split
  next item busy => simp [busy, eq_comm]
  next other =>
    simp only [reduceCtorEq, false_iff]
    rintro ⟨item, busy, _⟩
    exact other item busy

theorem die_iff : step state (.die index) = some next ↔
    ∃ item, state.receivers[index]? = some (.busy item) ∧
      next = { state with receivers := state.receivers.set index (.died item) } := by
  rw [step]
  split
  next item busy => simp [busy, eq_comm]
  next other =>
    simp only [reduceCtorEq, false_iff]
    rintro ⟨item, busy, _⟩
    exact other item busy

theorem leave_iff : step state (.leave index) = some next ↔
    state.receivers[index]? = some .waiting ∧ state.queue = [] ∧ state.closed = true ∧
      next = { state with receivers := state.receivers.set index .ended } := by
  rw [step]
  split
  next waiting queued closed => simp [waiting, queued, closed, eq_comm]
  next other =>
    simp only [reduceCtorEq, false_iff]
    rintro ⟨waiting, queued, closed, _⟩
    exact other waiting queued closed

end Inversion

section Replacing

variable {Entry Picked : Type} {entries : List Entry} {index : Nat} {old : Entry}

theorem split_set (found : entries[index]? = some old) :
    ∃ front back, entries = front ++ old :: back ∧
      ∀ new, entries.set index new = front ++ new :: back := by
  obtain ⟨inside, rfl⟩ := List.getElem?_eq_some_iff.mp found
  refine ⟨entries.take index, entries.drop (index + 1), ?_, ?_⟩
  · rw [List.getElem_cons_drop, List.take_append_drop]
  · intro new
    rw [List.set_eq_take_append_cons_drop, if_pos inside]

theorem perm_filterMap_set (pick : Entry → Option Picked) (found : entries[index]? = some old)
    (new : Entry) : (entries.filterMap pick ++ (pick new).toList).Perm
      ((entries.set index new).filterMap pick ++ (pick old).toList) := by
  obtain ⟨front, back, rfl, replaced⟩ := split_set found
  rw [replaced]
  have pulled (entry : Entry) : ((front ++ entry :: back).filterMap pick).Perm
      ((pick entry).toList ++ (front ++ back).filterMap pick) := by
    refine (List.perm_middle.filterMap pick).trans ?_
    rw [List.filterMap_cons]
    cases pick entry <;> exact .rfl
  refine ((pulled old).append_right _).trans (.trans ?_ ((pulled new).append_right _).symm)
  refine List.perm_append_comm.trans ?_
  rw [List.append_assoc]
  exact List.perm_append_comm.append_left _

theorem sum_map_set (weight : Entry → Nat) (found : entries[index]? = some old) (new : Entry) :
    (entries.map weight).sum + weight new = ((entries.set index new).map weight).sum + weight old := by
  obtain ⟨front, back, rfl, replaced⟩ := split_set found
  rw [replaced]
  simp only [List.map_append, List.map_cons, List.sum_append, List.sum_cons]
  omega

end Replacing

section Frame

variable {state next : State Item Outcome} {event : Event Item Outcome}

theorem step_frame (stepped : step state event = some next) :
    next.capacity = state.capacity ∧ next.receivers.length = state.receivers.length := by
  cases event with
  | send item =>
      obtain ⟨_, _, _, rfl⟩ := send_iff.mp stepped
      exact ⟨rfl, rfl⟩
  | close =>
      obtain ⟨_, rfl⟩ := close_iff.mp stepped
      exact ⟨rfl, rfl⟩
  | take index =>
      obtain ⟨_, _, _, _, rfl⟩ := take_iff.mp stepped
      exact ⟨rfl, List.length_set⟩
  | finish index outcome =>
      obtain ⟨_, _, rfl⟩ := finish_iff.mp stepped
      exact ⟨rfl, List.length_set⟩
  | die index =>
      obtain ⟨_, _, rfl⟩ := die_iff.mp stepped
      exact ⟨rfl, List.length_set⟩
  | leave index =>
      obtain ⟨_, _, _, rfl⟩ := leave_iff.mp stepped
      exact ⟨rfl, List.length_set⟩

def Event.quiet : Event Item Outcome → Bool
  | send _ => true
  | close => false
  | take _ => true
  | finish _ _ => false
  | die _ => true
  | leave _ => true

theorem step_quiet (quiet : event.quiet = true) (stepped : step state event = some next) :
    next.closed = state.closed ∧ next.handled = state.handled := by
  cases event with
  | send item =>
      obtain ⟨_, _, _, rfl⟩ := send_iff.mp stepped
      exact ⟨rfl, rfl⟩
  | close => cases quiet
  | take index =>
      obtain ⟨_, _, _, _, rfl⟩ := take_iff.mp stepped
      exact ⟨rfl, rfl⟩
  | finish index outcome => cases quiet
  | die index =>
      obtain ⟨_, _, rfl⟩ := die_iff.mp stepped
      exact ⟨rfl, rfl⟩
  | leave index =>
      obtain ⟨_, _, _, rfl⟩ := leave_iff.mp stepped
      exact ⟨rfl, rfl⟩

end Frame

section Kept

variable {state next last : State Item Outcome} {event : Event Item Outcome}
  {events : List (Event Item Outcome)}

def State.inHand (state : State Item Outcome) : List Item :=
  state.receivers.filterMap Receiver.held

/-- What every run keeps: the bound, the order, and an account of each item that was taken. A receiver
ends only where nothing is left to take. -/
structure Kept (state : State Item Outcome) : Prop where
  bounded : state.queue.length ≤ state.capacity
  inOrder : state.sent = state.taken ++ state.queue
  accounted : state.taken.Perm (state.handled.map Prod.fst ++ state.inHand)
  drained : .ended ∈ state.receivers → state.closed = true ∧ state.queue = []

theorem kept_new (capacity receivers : Nat) :
    Kept (State.new capacity receivers : State Item Outcome) := by
  refine ⟨Nat.zero_le _, rfl, ?_, ?_⟩
  · have nothing : (State.new capacity receivers : State Item Outcome).inHand = [] :=
      List.filterMap_eq_nil_iff.mpr fun receiver member => by
        rw [List.eq_of_mem_replicate member]
        rfl
    rw [nothing]
    exact .nil
  · intro ended
    cases List.eq_of_mem_replicate ended

theorem kept_step (kept : Kept state) (stepped : step state event = some next) : Kept next := by
  cases event with
  | send item =>
      obtain ⟨opened, room, _, rfl⟩ := send_iff.mp stepped
      refine ⟨?_, ?_, kept.accounted, ?_⟩
      · rw [List.length_append]
        exact room
      · simp only [kept.inOrder, List.append_assoc]
      · intro ended
        rw [(kept.drained ended).1] at opened
        cases opened
  | close =>
      obtain ⟨_, rfl⟩ := close_iff.mp stepped
      exact ⟨kept.bounded, kept.inOrder, kept.accounted, fun ended => ⟨rfl, (kept.drained ended).2⟩⟩
  | take index =>
      obtain ⟨item, queue, waiting, queued, rfl⟩ := take_iff.mp stepped
      refine ⟨?_, ?_, ?_, ?_⟩
      · have bounded := kept.bounded
        rw [queued, List.length_cons] at bounded
        exact Nat.le_of_succ_le bounded
      · simp only [kept.inOrder, queued, List.append_assoc, List.cons_append, List.nil_append]
      · have moved := perm_filterMap_set Receiver.held waiting (.busy item)
        simp only [Receiver.held, Option.toList_some, Option.toList_none, List.append_nil] at moved
        refine (kept.accounted.append_right [item]).trans ?_
        rw [List.append_assoc]
        exact moved.append_left _
      · intro ended
        rcases List.mem_or_eq_of_mem_set ended with before | new
        · rw [(kept.drained before).2] at queued
          cases queued
        · cases new
  | finish index outcome =>
      obtain ⟨item, busy, rfl⟩ := finish_iff.mp stepped
      refine ⟨kept.bounded, kept.inOrder, ?_, ?_⟩
      · have moved := perm_filterMap_set Receiver.held busy .waiting
        simp only [Receiver.held, Option.toList_some, Option.toList_none, List.append_nil] at moved
        refine kept.accounted.trans ?_
        rw [List.map_append, List.append_assoc]
        exact (moved.trans List.perm_append_comm).append_left _
      · intro ended
        rcases List.mem_or_eq_of_mem_set ended with before | new
        · exact kept.drained before
        · cases new
  | die index =>
      obtain ⟨item, busy, rfl⟩ := die_iff.mp stepped
      refine ⟨kept.bounded, kept.inOrder, ?_, ?_⟩
      · have moved := perm_filterMap_set Receiver.held busy (.died item)
        simp only [Receiver.held, Option.toList_some] at moved
        exact kept.accounted.trans (((List.perm_append_right_iff _).mp moved).append_left _)
      · intro ended
        rcases List.mem_or_eq_of_mem_set ended with before | new
        · exact kept.drained before
        · cases new
  | leave index =>
      obtain ⟨waiting, queued, closed, rfl⟩ := leave_iff.mp stepped
      refine ⟨kept.bounded, kept.inOrder, ?_, fun _ => ⟨closed, queued⟩⟩
      have moved := perm_filterMap_set Receiver.held waiting .ended
      simp only [Receiver.held, Option.toList_none, List.append_nil] at moved
      exact kept.accounted.trans (moved.append_left _)

/-- Once nothing receives any more, what was sent was handled, died in hand, or is left in the queue,
and it is left there only when every receiver died. -/
theorem Kept.stopped (kept : Kept state) (stopped : state.connected = false) :
    state.sent.Perm (state.handled.map Prod.fst ++ state.inHand ++ state.queue) ∧
      (state.queue ≠ [] → ∀ receiver ∈ state.receivers, ∃ item, receiver = .died item) := by
  refine ⟨kept.inOrder ▸ kept.accounted.append_right _, ?_⟩
  intro left receiver member
  have silent := List.any_eq_false.mp stopped receiver member
  cases receiver with
  | waiting => exact absurd rfl silent
  | busy item => exact absurd rfl silent
  | ended => exact absurd (kept.drained member).2 left
  | died item => exact ⟨item, rfl⟩

end Kept

section Draining

variable {state next last : State Item Outcome} {event : Event Item Outcome}
  {events : List (Event Item Outcome)}

def State.effort (state : State Item Outcome) : Nat :=
  3 * state.queue.length + (state.receivers.map Receiver.weight).sum

def Event.serves : Event Item Outcome → Bool
  | .send _ => false
  | .close => false
  | .take _ => true
  | .finish _ _ => true
  | .die _ => true
  | .leave _ => true

theorem step_effort (serves : event.serves = true) (stepped : step state event = some next) :
    next.effort < state.effort := by
  cases event with
  | send item => cases serves
  | close => cases serves
  | take index =>
      obtain ⟨item, queue, waiting, queued, rfl⟩ := take_iff.mp stepped
      have moved := sum_map_set Receiver.weight waiting (.busy item)
      simp only [Receiver.weight] at moved
      simp only [State.effort, queued, List.length_cons]
      omega
  | finish index outcome =>
      obtain ⟨item, busy, rfl⟩ := finish_iff.mp stepped
      have moved := sum_map_set Receiver.weight busy .waiting
      simp only [Receiver.weight] at moved
      simp only [State.effort]
      omega
  | die index =>
      obtain ⟨item, busy, rfl⟩ := die_iff.mp stepped
      have moved := sum_map_set Receiver.weight busy (.died item)
      simp only [Receiver.weight] at moved
      simp only [State.effort]
      omega
  | leave index =>
      obtain ⟨waiting, queued, closed, rfl⟩ := leave_iff.mp stepped
      have moved := sum_map_set Receiver.weight waiting .ended
      simp only [Receiver.weight] at moved
      simp only [State.effort]
      omega

/-- Where something receives, and something is queued or nothing more can come, a receiver can go on. -/
theorem connected_cases (connected : state.connected = true)
    (ready : state.queue ≠ [] ∨ state.closed = true) :
    ∃ index : Nat, (∃ item, state.receivers[index]? = some (.busy item)) ∨
      state.receivers[index]? = some .waiting ∧
        (state.queue = [] ∧ state.closed = true ∨ ∃ item queue, state.queue = item :: queue) := by
  obtain ⟨receiver, member, listens⟩ := List.any_eq_true.mp connected
  obtain ⟨index, found⟩ := List.mem_iff_getElem?.mp member
  refine ⟨index, ?_⟩
  cases receiver with
  | waiting =>
      refine Or.inr ⟨found, ?_⟩
      cases queued : state.queue with
      | nil => exact Or.inl ⟨rfl, ready.resolve_left fun some_ => some_ queued⟩
      | cons item queue => exact Or.inr ⟨item, queue, rfl⟩
  | busy item => exact Or.inl ⟨item, found⟩
  | ended => cases listens
  | died item => cases listens

end Draining

end Channel
