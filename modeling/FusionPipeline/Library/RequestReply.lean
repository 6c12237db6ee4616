import FusionPipeline.Library.Interleaving
import Mathlib.Logic.Function.Basic

/-!
Programs that make their calls over a network. A client holds one connection, sends one request on it
and waits for one reply, which it takes for the answer. The server reads each connection in order,
whether or not a client still waits on it. No party reads the numbers on the messages.
-/

namespace RequestReply

open Interleaving

structure Line (Request Reply : Type) where
  requests : List (Nat × Request)
  replies : List (Nat × Reply)
  connected : Bool

namespace Line

variable {Request Reply : Type}

def Quiet (line : Line Request Reply) : Prop :=
  line.requests = [] ∧ line.replies = []

def send (number : Nat) (request : Request) (line : Line Request Reply) : Line Request Reply :=
  if line.connected then { line with requests := line.requests ++ [(number, request)] } else line

def answer (number : Nat) (reply : Reply) (rest : List (Nat × Request)) (line : Line Request Reply) :
    Line Request Reply where
  requests := rest
  replies := if line.connected then line.replies ++ [(number, reply)] else line.replies
  connected := line.connected

def cut (received : Nat) (line : Line Request Reply) : Line Request Reply :=
  { line with requests := line.requests.take received, connected := false }

end Line

structure Waiting (Request Reply Result : Type) where
  number : Nat
  request : Request
  resume : Reply → Program Request (fun _ => Reply) Result

structure Client (Memory Request Reply Result : Type) where
  slot : Option Nat
  memory : Memory
  doing : Option (Waiting Request Reply Result)

structure Call (Memory Input Result : Type) where
  input : Memory × Input
  line : Option Nat
  returned : Option Result

structure World (State Memory Input Request Reply Result : Type) where
  server : State
  lines : Nat → Line Request Reply
  opened : Nat
  clients : Nat → Client Memory Request Reply Result
  calls : List (Call Memory Input Result)

/-- How the clients run their calls: a failure of the connection is handed to the program as a reply,
and what the program returns says whether the connection is kept. -/
structure System (State Memory Input Request Reply Result Choice Drift Failure : Type) where
  start : Memory → Input → Program Request (fun _ => Reply) Result
  answer : State → Request → Choice → State × Reply
  drift : State → Drift → State
  failed : Failure → Reply
  unreachable : Failure → Memory → Input → Result
  drops : Result → Bool
  remember : Memory → Result → Memory

inductive Event (Input Choice Drift Failure : Type) where
  | connect (client : Nat)
  | unreachable (client : Nat) (input : Input) (failure : Failure)
  | start (client : Nat) (input : Input)
  | execute (line : Nat) (choice : Choice)
  | receive (client : Nat)
  | fail (client : Nat) (failure : Failure)
  | cut (line : Nat) (received : Nat)
  | drift (change : Drift)

variable {State Memory Input Request Reply Result Choice Drift Failure : Type}

def World.initial (server : State) (memory : Nat → Memory) :
    World State Memory Input Request Reply Result where
  server
  lines _ := ⟨[], [], false⟩
  opened := 0
  clients index := ⟨none, memory index, none⟩
  calls := []

namespace System

variable (system : System State Memory Input Request Reply Result Choice Drift Failure)

def proceed (world : World State Memory Input Request Reply Result) (index number : Nat)
    (program : Program Request (fun _ => Reply) Result) :
    World State Memory Input Request Reply Result :=
  let client := world.clients index
  match program, client.slot with
  | .done result, slot =>
      { world with
        clients := Function.update world.clients index {
          slot := if system.drops result then none else slot
          memory := system.remember client.memory result
          doing := none }
        calls := world.calls.modify number fun call => { call with returned := some result } }
  | .call request resume, some line =>
      { world with
        clients := Function.update world.clients index
          { client with doing := some ⟨number, request, resume⟩ }
        lines := Function.update world.lines line ((world.lines line).send number request) }
  | .call _ _, none => world

def step (world : World State Memory Input Request Reply Result) :
    Event Input Choice Drift Failure → Option (World State Memory Input Request Reply Result)
  | .connect index =>
      match world.clients index with
      | ⟨none, memory, none⟩ => some { world with
          lines := Function.update world.lines world.opened ⟨[], [], true⟩
          opened := world.opened + 1
          clients := Function.update world.clients index ⟨some world.opened, memory, none⟩ }
      | _ => none
  | .unreachable index input failure =>
      match world.clients index with
      | ⟨none, memory, none⟩ => some { world with
          calls := world.calls ++
            [⟨(memory, input), none, some (system.unreachable failure memory input)⟩] }
      | _ => none
  | .start index input =>
      match world.clients index with
      | ⟨some line, memory, none⟩ =>
          let called := { world with calls := world.calls ++ [⟨(memory, input), some line, none⟩] }
          some (system.proceed called index world.calls.length (system.start memory input))
      | _ => none
  | .execute line choice =>
      match (world.lines line).requests with
      | (number, request) :: rest =>
          let answered := system.answer world.server request choice
          some { world with
            server := answered.1
            lines := Function.update world.lines line
              ((world.lines line).answer number answered.2 rest) }
      | [] => none
  | .receive index =>
      match world.clients index with
      | ⟨some line, memory, some ⟨number, _, resume⟩⟩ =>
          match (world.lines line).replies with
          | (_, reply) :: rest =>
              let read := { world with
                lines := Function.update world.lines line { world.lines line with replies := rest }
                clients := Function.update world.clients index ⟨some line, memory, none⟩ }
              some (system.proceed read index number (resume reply))
          | [] => none
      | _ => none
  | .fail index failure =>
      match world.clients index with
      | ⟨some _, _, some ⟨number, _, resume⟩⟩ =>
          some (system.proceed world index number (resume (system.failed failure)))
      | _ => none
  | .cut line received =>
      some { world with
        lines := Function.update world.lines line ((world.lines line).cut received) }
  | .drift change => some { world with server := system.drift world.server change }

def run : World State Memory Input Request Reply Result → List (Event Input Choice Drift Failure) →
    Option (World State Memory Input Request Reply Result) :=
  Transition.run system.step

/-- The same calls with nothing between a client and the server. -/
def atomic : Machine State (Memory × Input) Request (fun _ => Reply) Result Choice Drift where
  start call := system.start call.1 call.2
  answer := system.answer
  drift := system.drift

/-- A program that ends at a failure of the connection, which is then dropped. -/
def Careful : Program Request (fun _ => Reply) Result → Prop
  | .done _ => True
  | .call _ resume =>
      (∀ failure, ∃ result, resume (system.failed failure) = .done result ∧
        system.drops result = true) ∧
      ∀ reply, Careful (resume reply)

end System

variable {system : System State Memory Input Request Reply Result Choice Drift Failure}
  {world next : World State Memory Input Request Reply Result}
  {pool : Pool State (Memory × Input) Request (fun _ => Reply) Result Choice}

structure System.Sound (system : System State Memory Input Request Reply Result Choice Drift Failure) :
    Prop where
  careful : ∀ memory input, system.Careful (system.start memory input)
  refused : ∀ failure memory input, system.drops (system.unreachable failure memory input) = true

/-- Where a request and its reply are while a client waits: not yet read by the server, answered, or
lost with the connection. -/
inductive Underway (tasks : List (Task (Memory × Input) Request (fun _ => Reply) Result))
    (line : Line Request Reply) (input : Memory × Input) (waiting : Waiting Request Reply Result) :
    Prop
  | sent (requests : line.requests = [(waiting.number, waiting.request)]) (replies : line.replies = [])
      (task : tasks[waiting.number]? = some ⟨input, some (.call waiting.request waiting.resume)⟩)
  | answered (reply : Reply) (requests : line.requests = [])
      (replies : line.replies = [(waiting.number, reply)])
      (task : tasks[waiting.number]? = some ⟨input, some (waiting.resume reply)⟩)
  | lost (quiet : line.Quiet)

/-- A client waits for nothing but the answer to its own last request. -/
structure Waits (system : System State Memory Input Request Reply Result Choice Drift Failure)
    (world : World State Memory Input Request Reply Result)
    (tasks : List (Task (Memory × Input) Request (fun _ => Reply) Result))
    (waiting : Waiting Request Reply Result) (line : Nat) (call : Call Memory Input Result) :
    Prop where
  called : world.calls[waiting.number]? = some call
  home : call.line = some line
  pending : call.returned = none
  careful : system.Careful (.call waiting.request waiting.resume)
  underway : Underway tasks (world.lines line) call.input waiting

/-- Each call is a task that has come as far as the server has answered it, and no connection carries
more than one message. -/
structure Related (system : System State Memory Input Request Reply Result Choice Drift Failure)
    (world : World State Memory Input Request Reply Result)
    (pool : Pool State (Memory × Input) Request (fun _ => Reply) Result Choice) : Prop where
  shared : pool.shared = world.server
  inputs : pool.tasks.map Task.input = world.calls.map Call.input
  single : ∀ line, (world.lines line).requests.length + (world.lines line).replies.length ≤ 1
  sent : ∀ line number request, (number, request) ∈ (world.lines line).requests →
    ∃ (call : Call Memory Input Result) (resume : Reply → Program Request (fun _ => Reply) Result),
      world.calls[number]? = some call ∧ call.line = some line ∧
      pool.tasks[number]? = some ⟨call.input, some (.call request resume)⟩
  slots : ∀ first second line, (world.clients first).slot = some line →
    (world.clients second).slot = some line → first = second
  below : ∀ index line, (world.clients index).slot = some line → line < world.opened
  idle : ∀ index line, (world.clients index).doing = none →
    (world.clients index).slot = some line → (world.lines line).Quiet
  waits : ∀ index waiting, (world.clients index).doing = some waiting →
    ∃ line call, (world.clients index).slot = some line ∧
      Waits system world pool.tasks waiting line call
  returned : ∀ (number : Nat) (call : Call Memory Input Result) (result : Result),
    world.calls[number]? = some call →
    call.returned = some result → system.drops result = false →
      pool.tasks[number]? = some ⟨call.input, some (.done result)⟩

section Steps

theorem Underway.frame {tasks others : List (Task (Memory × Input) Request (fun _ => Reply) Result)}
    {line : Line Request Reply} {input : Memory × Input} {waiting : Waiting Request Reply Result}
    (underway : Underway tasks line input waiting)
    (same : others[waiting.number]? = tasks[waiting.number]?) :
    Underway others line input waiting := by
  cases underway with
  | sent requests replies task => exact .sent requests replies (same.trans task)
  | answered reply requests replies task =>
      exact .answered reply requests replies (same.trans task)
  | lost quiet => exact .lost quiet

theorem calls_modify (calls : List (Call Memory Input Result)) (number : Nat)
    (result : Result) :
    (calls.modify number fun call => { call with returned := some result }).map Call.input =
      calls.map Call.input := by
  refine List.ext_getElem? fun other => ?_
  simp only [List.getElem?_map, List.getElem?_modify, Option.map_eq_map, Option.map_map]
  congr 1
  funext call
  simp only [Function.comp_apply]
  split <;> rfl

theorem Related.returns (related : Related system world pool) {index number : Nat}
    {client : Client Memory Request Reply Result} {result : Result} (rests : client.doing = none)
    (keeps : ∀ line, client.slot = some line →
      (world.clients index).slot = some line ∧ (world.lines line).Quiet)
    (right : system.drops result = false → ∀ call, world.calls[number]? = some call →
      pool.tasks[number]? = some ⟨call.input, some (.done result)⟩)
    (own : ∀ other waiting, other ≠ index → (world.clients other).doing = some waiting →
      waiting.number ≠ number) :
    Related system { world with
      clients := Function.update world.clients index client
      calls := world.calls.modify number fun call => { call with returned := some result } } pool where
  shared := related.shared
  inputs := by rw [related.inputs, calls_modify]
  single := related.single
  sent := by
    intro line other request member
    obtain ⟨call, resume, called, home, task⟩ := related.sent line other request member
    simp only [List.getElem?_modify, called, Option.map_eq_map, Option.map_some]
    split
    · exact ⟨_, resume, rfl, home, task⟩
    · exact ⟨_, resume, rfl, home, task⟩
  slots := by
    intro first second line firstSlot secondSlot
    refine related.slots first second line ?_ ?_
    · by_cases same : first = index
      · subst same
        simp only [Function.update_self] at firstSlot
        exact (keeps line firstSlot).1
      · simpa only [Function.update_of_ne same] using firstSlot
    · by_cases same : second = index
      · subst same
        simp only [Function.update_self] at secondSlot
        exact (keeps line secondSlot).1
      · simpa only [Function.update_of_ne same] using secondSlot
  below := by
    intro other line slot
    by_cases same : other = index
    · subst same
      simp only [Function.update_self] at slot
      exact related.below other line (keeps line slot).1
    · simp only [Function.update_of_ne same] at slot
      exact related.below other line slot
  idle := by
    intro other line doing slot
    by_cases same : other = index
    · subst same
      simp only [Function.update_self] at slot
      exact (keeps line slot).2
    · simp only [Function.update_of_ne same] at doing slot
      exact related.idle other line doing slot
  waits := by
    intro other waiting doing
    by_cases same : other = index
    · subst same
      simp only [Function.update_self, rests] at doing
      cases doing
    · simp only [Function.update_of_ne same] at doing ⊢
      obtain ⟨line, call, slot, waits⟩ := related.waits other waiting doing
      refine ⟨line, call, slot, ?_, waits.home, waits.pending, waits.careful, waits.underway⟩
      simp only [List.getElem?_modify, if_neg (own other waiting same doing).symm, waits.called,
        Option.map_eq_map, Option.map_some]
  returned := by
    intro other call value called returned keeps
    rw [List.getElem?_modify] at called
    by_cases same : number = other
    · subst same
      simp only [if_pos, Option.map_eq_map, Option.map_eq_some_iff] at called
      obtain ⟨before, called, rfl⟩ := called
      obtain rfl := Option.some.inj returned
      exact right keeps before called
    · simp only [if_neg same, Option.map_eq_map, Option.map_id'] at called
      exact related.returned other call value called returned keeps

/-- A client with nothing under way sends a request: no other one waits on its connection. -/
theorem Related.sends (related : Related system world pool) {index line : Nat}
    (waiting : Waiting Request Reply Result) {call : Call Memory Input Result}
    (slot : (world.clients index).slot = some line) (rests : (world.clients index).doing = none)
    (called : world.calls[waiting.number]? = some call) (home : call.line = some line)
    (pending : call.returned = none)
    (task : pool.tasks[waiting.number]? = some ⟨call.input, some (.call waiting.request waiting.resume)⟩)
    (careful : system.Careful (.call waiting.request waiting.resume)) :
    Related system { world with
      clients := Function.update world.clients index { world.clients index with doing := some waiting }
      lines := Function.update world.lines line
        ((world.lines line).send waiting.number waiting.request) } pool := by
  obtain ⟨noRequests, noReplies⟩ := related.idle index line rests slot
  have slotOf : ∀ other, (Function.update world.clients index
      { world.clients index with doing := some waiting } other).slot = (world.clients other).slot := by
    intro other
    by_cases same : other = index
    · subst same
      rw [Function.update_self]
    · rw [Function.update_of_ne same]
  have sentLine : ((world.lines line).send waiting.number waiting.request).requests =
      if (world.lines line).connected then [(waiting.number, waiting.request)] else [] := by
    rw [Line.send]
    split <;> simp [noRequests]
  have keptReplies : ((world.lines line).send waiting.number waiting.request).replies = [] := by
    rw [Line.send]
    split <;> exact noReplies
  refine ⟨related.shared, related.inputs, ?_, ?_, ?_, ?_, ?_, ?_, related.returned⟩
  · intro other
    by_cases same : other = line
    · subst same
      simp only [Function.update_self, sentLine, keptReplies]
      split <;> simp
    · simpa only [Function.update_of_ne same] using related.single other
  · intro other number request member
    by_cases same : other = line
    · subst same
      simp only [Function.update_self, sentLine] at member
      split at member
      next =>
        obtain ⟨rfl, rfl⟩ := Prod.mk.inj (List.mem_singleton.mp member)
        exact ⟨call, waiting.resume, called, home, task⟩
      next => cases member
    · simp only [Function.update_of_ne same] at member
      exact related.sent other number request member
  · intro first second other firstSlot secondSlot
    exact related.slots first second other ((slotOf first).symm.trans firstSlot)
      ((slotOf second).symm.trans secondSlot)
  · intro other held heldSlot
    exact related.below other held ((slotOf other).symm.trans heldSlot)
  · intro other held doing heldSlot
    by_cases same : other = index
    · subst same
      simp only [Function.update_self] at doing
      cases doing
    · simp only [Function.update_of_ne same] at doing heldSlot
      have apart : held ≠ line := fun equal =>
        same (related.slots other index line (equal ▸ heldSlot) slot)
      simpa only [Function.update_of_ne apart] using related.idle other held doing heldSlot
  · intro other awaited doing
    by_cases same : other = index
    · subst same
      simp only [Function.update_self, Option.some.injEq] at doing
      subst doing
      refine ⟨line, call, (slotOf other).trans slot, called, home, pending, careful, ?_⟩
      simp only [Function.update_self]
      by_cases connected : (world.lines line).connected
      · exact .sent (by rw [sentLine, if_pos connected]) keptReplies task
      · exact .lost ⟨by rw [sentLine, if_neg connected], keptReplies⟩
    · simp only [Function.update_of_ne same] at doing
      obtain ⟨held, made, heldSlot, waits⟩ := related.waits other awaited doing
      have apart : held ≠ line := fun equal =>
        same (related.slots other index line (equal ▸ heldSlot) slot)
      refine ⟨held, made, (slotOf other).trans heldSlot, waits.called, waits.home, waits.pending,
        waits.careful, ?_⟩
      simpa only [Function.update_of_ne apart] using waits.underway

theorem Related.others (related : Related system world pool) {index line number : Nat}
    {call : Call Memory Input Result} (slot : (world.clients index).slot = some line)
    (called : world.calls[number]? = some call) (home : call.line = some line) :
    ∀ other waiting, other ≠ index → (world.clients other).doing = some waiting →
      waiting.number ≠ number := by
  intro other waiting differs doing equal
  obtain ⟨held, made, heldSlot, waits⟩ := related.waits other waiting doing
  have sameCall : made = call := by
    have found := waits.called
    rw [equal, called] at found
    exact (Option.some.inj found).symm
  have sameLine : held = line := by
    have where_ := waits.home
    rw [sameCall, home] at where_
    exact (Option.some.inj where_).symm
  exact differs (related.slots other index line (sameLine ▸ heldSlot) slot)

theorem Related.proceeds (related : Related system world pool) {index number : Nat} (line : Nat)
    (call : Call Memory Input Result) {program : Program Request (fun _ => Reply) Result}
    (slot : (world.clients index).slot = some line) (rests : (world.clients index).doing = none)
    (called : world.calls[number]? = some call) (home : call.line = some line)
    (pending : call.returned = none) (task : pool.tasks[number]? = some ⟨call.input, some program⟩)
    (careful : system.Careful program) :
    Related system (system.proceed world index number program) pool := by
  cases program with
  | done result =>
      simp only [System.proceed]
      refine related.returns rfl ?_ ?_ (related.others slot called home)
      · intro kept keptSlot
        split at keptSlot
        next => cases keptSlot
        next => exact ⟨keptSlot, related.idle index kept rests keptSlot⟩
      · intro _ other found
        obtain rfl := Option.some.inj (called.symm.trans found)
        exact task
  | call request resume =>
      simp only [System.proceed, slot]
      simpa only [slot] using
        related.sends ⟨number, request, resume⟩ slot rests called home pending task careful

theorem Related.fails (related : Related system world pool) {index : Nat}
    (waiting : Waiting Request Reply Result) {failure : Failure}
    (doing : (world.clients index).doing = some waiting) :
    Related system (system.proceed world index waiting.number
      (waiting.resume (system.failed failure))) pool := by
  obtain ⟨line, call, slot, waits⟩ := related.waits index waiting doing
  obtain ⟨result, ended, drops⟩ := waits.careful.1 failure
  simp only [ended, System.proceed, drops, if_true]
  refine related.returns rfl ?_ ?_ (related.others slot waits.called waits.home)
  · intro kept keptSlot
    cases keptSlot
  · intro keeps
    rw [drops] at keeps
    cases keeps

theorem Related.calls (related : Related system world pool) (call : Call Memory Input Result)
    (refused : ∀ result, call.returned = some result → system.drops result = true) :
    Related system { world with calls := world.calls ++ [call] }
      { pool with tasks := pool.tasks ++
        [⟨call.input, some (system.start call.input.1 call.input.2)⟩] } := by
  have sameLength : pool.tasks.length = world.calls.length := by
    simpa using congrArg List.length related.inputs
  have taskKept : ∀ {number : Nat} {task}, pool.tasks[number]? = some task →
      (pool.tasks ++ [⟨call.input, some (system.start call.input.1 call.input.2)⟩])[number]? =
        some task := by
    intro number task found
    rw [List.getElem?_append_left (List.getElem?_eq_some_iff.mp found).1, found]
  have callKept : ∀ {number : Nat} {made}, world.calls[number]? = some made →
      (world.calls ++ [call])[number]? = some made := by
    intro number made found
    rw [List.getElem?_append_left (List.getElem?_eq_some_iff.mp found).1, found]
  refine ⟨related.shared, ?_, related.single, ?_, related.slots, related.below, related.idle, ?_, ?_⟩
  · rw [List.map_append, List.map_append, related.inputs]
    rfl
  · intro line number request member
    obtain ⟨made, resume, called, home, task⟩ := related.sent line number request member
    exact ⟨made, resume, callKept called, home, taskKept task⟩
  · intro index waiting doing
    obtain ⟨line, made, slot, waits⟩ := related.waits index waiting doing
    have sameTask : (pool.tasks ++
        [⟨call.input, some (system.start call.input.1 call.input.2)⟩])[waiting.number]? =
          pool.tasks[waiting.number]? := by
      have bound := (List.getElem?_eq_some_iff.mp waits.called).1
      rw [List.getElem?_append_left (by omega)]
    exact ⟨line, made, slot, callKept waits.called, waits.home, waits.pending, waits.careful,
      waits.underway.frame sameTask⟩
  · intro number made result called returned keeps
    rcases Nat.lt_trichotomy number world.calls.length with earlier | last | beyond
    · rw [List.getElem?_append_left earlier] at called
      exact taskKept (related.returned number made result called returned keeps)
    · subst last
      rw [List.getElem?_concat_length, Option.some.injEq] at called
      subst made
      rw [refused result returned] at keeps
      cases keeps
    · rw [List.getElem?_eq_none (by simp; omega)] at called
      cases called

theorem Related.alone (related : Related system world pool) {line number : Nat} {request : Request}
    {rest : List (Nat × Request)} (head : (world.lines line).requests = (number, request) :: rest) :
    rest = [] ∧ (world.lines line).replies = [] := by
  have single := related.single line
  rw [head, List.length_cons] at single
  exact ⟨List.eq_nil_of_length_eq_zero (by omega), List.eq_nil_of_length_eq_zero (by omega)⟩

/-- The server answers a request: its task makes that call, and no other task moves. -/
theorem Related.executes (related : Related system world pool) {line number : Nat} {request : Request}
    {rest : List (Nat × Request)} (choice : Choice)
    (head : (world.lines line).requests = (number, request) :: rest) :
    ∃ other, system.atomic.run pool [.advance number choice] = some other ∧
      Related system { world with
        server := (system.answer world.server request choice).1
        lines := Function.update world.lines line ((world.lines line).answer number
          (system.answer world.server request choice).2 rest) } other := by
  obtain ⟨rfl, noReplies⟩ := related.alone head
  obtain ⟨call, resume, called, home, task⟩ := related.sent line number request (by simp [head])
  obtain ⟨bound, holds⟩ := List.getElem?_eq_some_iff.mp task
  have moved : system.atomic.step pool (.advance number choice) = _ :=
    Interleaving.step_advance task choice
  refine ⟨_, Transition.run_cons_iff.mpr ⟨_, moved, rfl⟩, ?_⟩
  have answered : system.atomic.answer pool.shared request choice =
      system.answer world.server request choice := by
    rw [related.shared]
    rfl
  simp only [Machine.entry, answered]
  have elsewhere : ∀ other, other ≠ number → ∀ next,
      (pool.tasks.set number next)[other]? = pool.tasks[other]? :=
    fun other differs next => List.getElem?_set_ne differs.symm
  refine ⟨rfl, ?_, ?_, ?_, related.slots, related.below, ?_, ?_, ?_⟩
  · rw [← related.inputs, List.map_set]
    refine List.ext_getElem? fun other => ?_
    rw [List.getElem?_set]
    split
    next same =>
      subst same
      simp [bound, holds]
    next => rfl
  · intro other
    by_cases same : other = line
    · subst same
      simp only [Function.update_self, Line.answer, noReplies]
      split <;> simp
    · simpa only [Function.update_of_ne same] using related.single other
  · intro other sentNumber sentRequest member
    by_cases same : other = line
    · subst same
      simp only [Function.update_self, Line.answer] at member
      cases member
    · simp only [Function.update_of_ne same] at member
      obtain ⟨made, next, madeCalled, madeHome, madeTask⟩ :=
        related.sent other sentNumber sentRequest member
      have differs : sentNumber ≠ number := by
        rintro rfl
        obtain rfl := Option.some.inj (madeCalled.symm.trans called)
        exact same (Option.some.inj (madeHome.symm.trans home))
      exact ⟨made, next, madeCalled, madeHome, (elsewhere _ differs _).trans madeTask⟩
  · intro index held doing slot
    have quiet := related.idle index held doing slot
    have differs : held ≠ line := by
      rintro rfl
      rw [quiet.1] at head
      cases head
    simpa only [Function.update_of_ne differs] using quiet
  · intro index waiting doing
    obtain ⟨held, made, slot, waits⟩ := related.waits index waiting doing
    refine ⟨held, made, slot, waits.called, waits.home, waits.pending, waits.careful, ?_⟩
    by_cases same : held = line
    · subst same
      simp only [Function.update_self]
      have underway := waits.underway
      cases underway with
      | sent requests _ ownTask =>
          rw [head] at requests
          obtain ⟨sameNumber, sameRequest⟩ := Prod.mk.inj (List.cons.inj requests).1
          subst sameNumber sameRequest
          rw [task] at ownTask
          simp only [Option.some.injEq, Task.mk.injEq, Program.call.injEq, heq_eq_eq, true_and]
            at ownTask
          obtain ⟨sameInput, rfl⟩ := ownTask
          by_cases connected : (world.lines held).connected
          · refine .answered (system.answer world.server waiting.request choice).2 rfl
              (by simp [Line.answer, connected, noReplies]) ?_
            rw [List.getElem?_set_self bound, sameInput]
          · exact .lost ⟨rfl, by simp [Line.answer, connected, noReplies]⟩
      | answered _ requests _ _ =>
          rw [head] at requests
          cases requests
      | lost quiet =>
          rw [quiet.1] at head
          cases head
    · simp only [Function.update_of_ne same]
      refine waits.underway.frame (elsewhere _ ?_ _)
      rintro rfl
      obtain rfl := Option.some.inj (waits.called.symm.trans called)
      exact same (Option.some.inj (waits.home.symm.trans home))
  · intro other made result madeCalled returned keeps
    have done := related.returned other made result madeCalled returned keeps
    have differs : other ≠ number := by
      rintro rfl
      rw [task] at done
      simp at done
    exact (elsewhere _ differs _).trans done

/-- What a client reads is the answer to its own request. -/
theorem Related.receives (related : Related system world pool) {index line number : Nat}
    {waiting : Waiting Request Reply Result} {memory : Memory} {reply : Reply}
    {rest : List (Nat × Reply)} (client : world.clients index = ⟨some line, memory, some waiting⟩)
    (head : (world.lines line).replies = (number, reply) :: rest) :
    Related system (system.proceed { world with
      lines := Function.update world.lines line { world.lines line with replies := rest }
      clients := Function.update world.clients index ⟨some line, memory, none⟩ } index waiting.number
        (waiting.resume reply)) pool := by
  obtain ⟨held, call, slot, waits⟩ := related.waits index waiting (by rw [client])
  rw [client, Option.some.injEq] at slot
  subst slot
  obtain ⟨requests, task, rfl⟩ : (world.lines line).requests = [] ∧
      pool.tasks[waiting.number]? = some ⟨call.input, some (waiting.resume reply)⟩ ∧ rest = [] := by
    cases waits.underway with
    | sent _ noReplies _ =>
        rw [head] at noReplies
        cases noReplies
    | answered own requests replies task =>
        rw [head] at replies
        obtain ⟨same, nothing⟩ := List.cons.inj replies
        obtain ⟨_, rfl⟩ := Prod.mk.inj same
        exact ⟨requests, task, nothing⟩
    | lost quiet =>
        rw [quiet.2] at head
        cases head
  have slotOf : (world.clients index).slot = some line := by rw [client]
  have othersSlot : ∀ other, (Function.update world.clients index ⟨some line, memory, none⟩ other).slot =
      (world.clients other).slot := by
    intro other
    by_cases same : other = index
    · subst same
      rw [Function.update_self, slotOf]
    · rw [Function.update_of_ne same]
  refine Related.proceeds ?_ line call (by simp only [Function.update_self])
    (by simp only [Function.update_self]) waits.called waits.home waits.pending task
    (waits.careful.2 reply)
  refine ⟨related.shared, related.inputs, ?_, ?_, ?_, ?_, ?_, ?_, related.returned⟩
  · intro other
    by_cases same : other = line
    · subst same
      simp [requests]
    · simpa only [Function.update_of_ne same] using related.single other
  · intro other sentNumber request member
    by_cases same : other = line
    · subst same
      simp only [Function.update_self, requests] at member
      cases member
    · simp only [Function.update_of_ne same] at member
      exact related.sent other sentNumber request member
  · intro first second other firstSlot secondSlot
    exact related.slots first second other ((othersSlot first).symm.trans firstSlot)
      ((othersSlot second).symm.trans secondSlot)
  · intro other kept keptSlot
    exact related.below other kept ((othersSlot other).symm.trans keptSlot)
  · intro other kept doing keptSlot
    by_cases same : kept = line
    · subst same
      simp only [Function.update_self]
      exact ⟨requests, rfl⟩
    · have differs : other ≠ index := by
        rintro rfl
        simp only [Function.update_self, Option.some.injEq] at keptSlot
        exact same keptSlot.symm
      simp only [Function.update_of_ne differs] at doing keptSlot
      simpa only [Function.update_of_ne same] using related.idle other kept doing keptSlot
  · intro other awaited doing
    have differs : other ≠ index := by
      rintro rfl
      simp only [Function.update_self] at doing
      cases doing
    simp only [Function.update_of_ne differs] at doing
    obtain ⟨kept, made, keptSlot, keptWaits⟩ := related.waits other awaited doing
    have apart : kept ≠ line := fun equal =>
      differs (related.slots other index line (equal ▸ keptSlot) slotOf)
    refine ⟨kept, made, (othersSlot other).trans keptSlot, keptWaits.called, keptWaits.home,
      keptWaits.pending, keptWaits.careful, ?_⟩
    simpa only [Function.update_of_ne apart] using keptWaits.underway

theorem Related.cuts (related : Related system world pool) (line received : Nat) :
    Related system { world with
      lines := Function.update world.lines line ((world.lines line).cut received) } pool := by
  have fewer : ((world.lines line).cut received).requests = (world.lines line).requests ∨
      ((world.lines line).cut received).requests = [] := by
    have single := related.single line
    cases received with
    | zero => exact Or.inr rfl
    | succ received =>
        refine Or.inl (List.take_of_length_le ?_)
        omega
  refine ⟨related.shared, related.inputs, ?_, ?_, related.slots, related.below, ?_, ?_,
    related.returned⟩
  · intro other
    by_cases same : other = line
    · subst same
      have single := related.single other
      have taken : ((world.lines other).requests.take received).length ≤
          (world.lines other).requests.length := List.length_take_le' _ _
      simp only [Function.update_self, Line.cut]
      omega
    · simpa only [Function.update_of_ne same] using related.single other
  · intro other number request member
    refine related.sent other number request ?_
    by_cases same : other = line
    · subst same
      simp only [Function.update_self, Line.cut] at member
      exact List.mem_of_mem_take member
    · simpa only [Function.update_of_ne same] using member
  · intro index other doing slot
    have quiet := related.idle index other doing slot
    by_cases same : other = line
    · subst same
      simp only [Function.update_self]
      exact ⟨by simp [Line.cut, quiet.1], quiet.2⟩
    · simpa only [Function.update_of_ne same] using quiet
  · intro index waiting doing
    obtain ⟨held, call, slot, waits⟩ := related.waits index waiting doing
    refine ⟨held, call, slot, waits.called, waits.home, waits.pending, waits.careful, ?_⟩
    by_cases same : held = line
    · subst same
      simp only [Function.update_self]
      cases waits.underway with
      | sent requests replies task =>
          rcases fewer with kept | gone
          · exact .sent (kept.trans requests) replies task
          · exact .lost ⟨gone, replies⟩
      | answered reply requests replies task =>
          exact .answered reply (by simp [Line.cut, requests]) replies task
      | lost quiet => exact .lost ⟨by simp [Line.cut, quiet.1], quiet.2⟩
    · simpa only [Function.update_of_ne same] using waits.underway

theorem Related.connects (related : Related system world pool) {index : Nat} {memory : Memory}
    (client : world.clients index = ⟨none, memory, none⟩) :
    Related system { world with
      lines := Function.update world.lines world.opened ⟨[], [], true⟩
      opened := world.opened + 1
      clients := Function.update world.clients index ⟨some world.opened, memory, none⟩ } pool := by
  have older : ∀ other line, other ≠ index → (Function.update world.clients index
      ⟨some world.opened, memory, none⟩ other).slot = some line →
        (world.clients other).slot = some line ∧ line ≠ world.opened := by
    intro other line differs slot
    rw [Function.update_of_ne differs] at slot
    exact ⟨slot, Nat.ne_of_lt (related.below other line slot)⟩
  have newest : ∀ line, (Function.update world.clients index
      ⟨some world.opened, memory, none⟩ index).slot = some line → line = world.opened := by
    intro line slot
    rw [Function.update_self] at slot
    exact (Option.some.inj slot).symm
  refine ⟨related.shared, related.inputs, ?_, ?_, ?_, ?_, ?_, ?_, related.returned⟩
  · intro line
    by_cases same : line = world.opened
    · subst same
      simp
    · simpa only [Function.update_of_ne same] using related.single line
  · intro line number request member
    by_cases same : line = world.opened
    · subst same
      simp only [Function.update_self] at member
      cases member
    · simp only [Function.update_of_ne same] at member
      exact related.sent line number request member
  · intro first second line firstSlot secondSlot
    by_cases one : first = index
    · subst one
      by_cases two : second = first
      · exact two.symm
      · exact absurd (newest line firstSlot) (older second line two secondSlot).2
    · obtain ⟨firstHeld, differs⟩ := older first line one firstSlot
      by_cases two : second = index
      · subst two
        exact absurd (newest line secondSlot) differs
      · exact related.slots first second line firstHeld (older second line two secondSlot).1
  · intro other line slot
    by_cases same : other = index
    · subst same
      rw [newest line slot]
      exact Nat.lt_succ_self _
    · exact Nat.lt_succ_of_lt (related.below other line (older other line same slot).1)
  · intro other line doing slot
    by_cases same : other = index
    · subst same
      rw [newest line slot]
      simp only [Function.update_self]
      exact ⟨rfl, rfl⟩
    · obtain ⟨held, differs⟩ := older other line same slot
      simp only [Function.update_of_ne same] at doing
      simpa only [Function.update_of_ne differs] using related.idle other line doing held
  · intro other waiting doing
    have differs : other ≠ index := by
      rintro rfl
      simp only [Function.update_self] at doing
      cases doing
    simp only [Function.update_of_ne differs] at doing ⊢
    obtain ⟨line, call, slot, waits⟩ := related.waits other waiting doing
    refine ⟨line, call, slot, waits.called, waits.home, waits.pending, waits.careful, ?_⟩
    have apart : line ≠ world.opened := Nat.ne_of_lt (related.below other line slot)
    simpa only [Function.update_of_ne apart] using waits.underway

theorem Related.step (sound : system.Sound) {event : Event Input Choice Drift Failure}
    (related : Related system world pool) (stepped : system.step world event = some next) :
    ∃ events other, system.atomic.run pool events = some other ∧ Related system next other := by
  cases event with
  | connect index =>
      simp only [System.step] at stepped
      split at stepped
      next memory client =>
        obtain rfl := Option.some.inj stepped
        exact ⟨[], pool, rfl, related.connects client⟩
      next => cases stepped
  | unreachable index input failure =>
      simp only [System.step] at stepped
      split at stepped
      next memory client =>
        obtain rfl := Option.some.inj stepped
        refine ⟨[.spawn (memory, input)], _, rfl, related.calls _ ?_⟩
        intro result returned
        obtain rfl := Option.some.inj returned
        exact sound.refused failure memory input
      next => cases stepped
  | start index input =>
      simp only [System.step] at stepped
      split at stepped
      next line memory client =>
        obtain rfl := Option.some.inj stepped
        have sameLength : pool.tasks.length = world.calls.length := by
          simpa using congrArg List.length related.inputs
        have called := related.calls ⟨(memory, input), some line, none⟩ (by simp)
        refine ⟨[.spawn (memory, input)], _, rfl, called.proceeds line _ ?_ ?_
          List.getElem?_concat_length rfl rfl ?_ (sound.careful memory input)⟩
        · simp only [client]
        · simp only [client]
        · simp only
          rw [← sameLength]
          exact List.getElem?_concat_length
      next => cases stepped
  | execute line choice =>
      simp only [System.step] at stepped
      split at stepped
      next number request rest head =>
        obtain rfl := Option.some.inj stepped
        obtain ⟨other, ran, after⟩ := related.executes choice head
        exact ⟨[.advance number choice], other, ran, after⟩
      next => cases stepped
  | receive index =>
      simp only [System.step] at stepped
      split at stepped
      next line memory number request resume client =>
        split at stepped
        next other reply rest head =>
          obtain rfl := Option.some.inj stepped
          exact ⟨[], pool, rfl, related.receives client head⟩
        next => cases stepped
      next => cases stepped
  | fail index failure =>
      simp only [System.step] at stepped
      split at stepped
      next line memory number request resume client =>
        obtain rfl := Option.some.inj stepped
        exact ⟨[], pool, rfl, related.fails ⟨number, request, resume⟩ (by rw [client])⟩
      next => cases stepped
  | cut line received =>
      obtain rfl := Option.some.inj stepped
      exact ⟨[], pool, rfl, related.cuts line received⟩
  | drift change =>
      obtain rfl := Option.some.inj stepped
      refine ⟨[.drift change], _, rfl, ?_, related.inputs, related.single, related.sent,
        related.slots, related.below, related.idle, ?_, related.returned⟩
      · simp only [System.atomic, related.shared]
      · intro index waiting doing
        obtain ⟨line, call, slot, waits⟩ := related.waits index waiting doing
        exact ⟨line, call, slot, waits.called, waits.home, waits.pending, waits.careful,
          waits.underway⟩

end Steps

theorem related_initial (server : State) (memory : Nat → Memory) :
    Related system (World.initial server memory) (Pool.initial server) := by
  constructor <;> simp [World.initial, Pool.initial]

/-- The rule for clients over a network: what they are answered, whatever breaks and whenever, they
are answered in a run where each request takes effect at once. -/
theorem run_related (sound : system.Sound) {events : List (Event Input Choice Drift Failure)}
    (related : Related system world pool) (ran : system.run world events = some next) :
    ∃ happened other, system.atomic.run pool happened = some other ∧ Related system next other := by
  induction events generalizing world pool with
  | nil =>
      obtain rfl := Option.some.inj ran
      exact ⟨[], pool, rfl, related⟩
  | cons event events ih =>
      obtain ⟨middle, stepped, rest⟩ := Transition.run_cons_iff.mp ran
      obtain ⟨first, between, went, relatedThen⟩ := related.step sound stepped
      obtain ⟨later, other, ended, finally_⟩ := ih relatedThen rest
      exact ⟨first ++ later, other, Transition.run_append_iff.mpr ⟨between, went, ended⟩, finally_⟩

end RequestReply
