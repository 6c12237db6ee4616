import FusionPipeline.Library.Interleaving

/-!
What a program may call, given the calls it made and the answers it got. A program that
obeys a rule whatever the answers are obeys it on every path, wherever the path is cut off.
-/

namespace Interleaving

structure Exchange (Call : Type) (Reply : Call → Type) where
  request : Call
  reply : Reply request

section Programs

variable {Call Result Next : Type} {Reply : Call → Type}

namespace Program

instance : Monad (Program Call Reply) where
  pure := done
  bind := bind

def ask (request : Call) : Program Call Reply (Reply request) :=
  .call request .done

/-- At each call `may` holds of the history before it, and `post` of the one the program
ends with. -/
def Obeys (may : List (Exchange Call Reply) → Call → Prop)
    (post : List (Exchange Call Reply) → Result → Prop) :
    List (Exchange Call Reply) → Program Call Reply Result → Prop
  | history, .done result => post history result
  | history, .call request resume =>
      may history request ∧
        ∀ reply, (resume reply).Obeys may post (history ++ [⟨request, reply⟩])

section Rules

variable {may : List (Exchange Call Reply) → Call → Prop}
variable {post : List (Exchange Call Reply) → Result → Prop}
variable {middle : List (Exchange Call Reply) → Next → Prop}

theorem obeys_pure {history : List (Exchange Call Reply)} {result : Result}
    (ends : post history result) :
    Obeys may post history (pure result : Program Call Reply Result) :=
  ends

theorem Obeys.bind {program : Program Call Reply Next} {next : Next → Program Call Reply Result}
    {history : List (Exchange Call Reply)} (obeys : program.Obeys may middle history)
    (later : ∀ history result, middle history result → (next result).Obeys may post history) :
    (program >>= next).Obeys may post history := by
  induction program generalizing history with
  | done result => exact later history result obeys
  | call request resume ih => exact ⟨obeys.1, fun reply => ih reply (obeys.2 reply)⟩

theorem obeys_ask {request : Call} {next : Reply request → Program Call Reply Result}
    {history : List (Exchange Call Reply)} (allowed : may history request)
    (later : ∀ reply, (next reply).Obeys may post (history ++ [⟨request, reply⟩])) :
    (ask request >>= next).Obeys may post history :=
  ⟨allowed, later⟩

theorem Obeys.weaken {mayToo : List (Exchange Call Reply) → Call → Prop}
    {postToo : List (Exchange Call Reply) → Result → Prop} {program : Program Call Reply Result}
    {history : List (Exchange Call Reply)} (obeys : program.Obeys may post history)
    (calls : ∀ history request, may history request → mayToo history request)
    (ends : ∀ history result, post history result → postToo history result) :
    program.Obeys mayToo postToo history := by
  induction program generalizing history with
  | done result => exact ends history result obeys
  | call request resume ih => exact ⟨calls _ _ obeys.1, fun reply => ih reply (obeys.2 reply)⟩

end Rules

/-- What is left of a program after the calls and answers of a history. -/
inductive Reaches : Program Call Reply Result → List (Exchange Call Reply) →
    Program Call Reply Result → Prop
  | here (program : Program Call Reply Result) : Reaches program [] program
  | call {exchange : Exchange Call Reply} {rest : List (Exchange Call Reply)}
      {resume : Reply exchange.request → Program Call Reply Result}
      {last : Program Call Reply Result} (tail : Reaches (resume exchange.reply) rest last) :
      Reaches (.call exchange.request resume) (exchange :: rest) last

/-- The rule for histories: a program that obeys a rule keeps to it along every path. -/
theorem Reaches.obeys {may : List (Exchange Call Reply) → Call → Prop}
    {post : List (Exchange Call Reply) → Result → Prop} {first last : Program Call Reply Result}
    {history made : List (Exchange Call Reply)} (reached : first.Reaches made last)
    (obeys : first.Obeys may post history) :
    last.Obeys may post (history ++ made) ∧
      ∀ earlier exchange later, made = earlier ++ exchange :: later →
        may (history ++ earlier) exchange.request := by
  induction reached generalizing history with
  | here program => exact ⟨by simpa using obeys, by simp⟩
  | @call exchange rest resume last tail ih =>
      obtain ⟨ends, kept⟩ := ih (obeys.2 exchange.reply)
      refine ⟨by simpa using ends, ?_⟩
      intro earlier other later split
      cases earlier with
      | nil =>
          obtain ⟨rfl, rfl⟩ := List.cons.inj split
          simpa using obeys.1
      | cons head earlier =>
          obtain ⟨rfl, tailSplit⟩ := List.cons.inj split
          simpa using kept earlier other later tailSplit

theorem reaches_done (program : Program Call Reply Result) (reply : ∀ request, Reply request) :
    ∃ made result, program.Reaches made (.done result) := by
  induction program with
  | done result => exact ⟨[], result, .here _⟩
  | call request resume ih =>
      obtain ⟨made, result, reached⟩ := ih (reply request)
      exact ⟨⟨request, reply request⟩ :: made, result, @Reaches.call _ _ _ ⟨_, _⟩ _ _ _ reached⟩

def Only (allowed : Call → Prop) : Program Call Reply Result → Prop
  | .done _ => True
  | .call request resume => allowed request ∧ ∀ reply, (resume reply).Only allowed

section Only

variable {allowed : Call → Prop}

theorem only_pure (result : Result) : Only allowed (pure result : Program Call Reply Result) :=
  trivial

theorem only_ask {request : Call} (may : allowed request) :
    Only allowed (ask request : Program Call Reply (Reply request)) :=
  ⟨may, fun _ => trivial⟩

theorem Only.bind {program : Program Call Reply Next} {next : Next → Program Call Reply Result}
    (only : program.Only allowed) (later : ∀ result, (next result).Only allowed) :
    (program >>= next).Only allowed := by
  induction program with
  | done result => exact later result
  | call request resume ih => exact ⟨only.1, fun reply => ih reply (only.2 reply)⟩

theorem Only.obeys {may : List (Exchange Call Reply) → Call → Prop}
    {program : Program Call Reply Result} (only : program.Only allowed)
    (passes : ∀ history request, allowed request → may history request)
    (history : List (Exchange Call Reply)) :
    program.Obeys may (fun _ _ => True) history := by
  induction program generalizing history with
  | done result => trivial
  | call request resume ih => exact ⟨passes _ _ only.1, fun reply => ih reply (only.2 reply) _⟩

end Only

section Performing

variable {Shared : Type} {answer : Shared → (request : Call) → Shared × Reply request}

def perform (answer : Shared → (request : Call) → Shared × Reply request) :
    Program Call Reply Result → Shared → Result × Shared
  | .done result, shared => (result, shared)
  | .call request resume, shared =>
      (resume (answer shared request).2).perform answer (answer shared request).1

/-- The rule for runs: a run follows a path to its result, and what each answer keeps, the
calls before it being known, holds of the object it leaves and all the calls made. -/
theorem perform_history {holds : Shared → List (Exchange Call Reply) → Prop}
    (answered : ∀ shared history request, holds shared history →
      holds (answer shared request).1 (history ++ [⟨request, (answer shared request).2⟩]))
    (program : Program Call Reply Result) {shared : Shared} {history : List (Exchange Call Reply)}
    (initially : holds shared history) :
    ∃ made, program.Reaches made (.done (program.perform answer shared).1) ∧
      holds (program.perform answer shared).2 (history ++ made) := by
  induction program generalizing shared history with
  | done result => exact ⟨[], .here _, by simpa [perform] using initially⟩
  | call request resume ih =>
      obtain ⟨made, reached, after⟩ :=
        ih (answer shared request).2 (answered shared history request initially)
      refine ⟨⟨request, (answer shared request).2⟩ :: made, ?_, by simpa [perform] using after⟩
      exact @Reaches.call _ _ _ ⟨_, _⟩ _ _ _ reached

end Performing

end Program

variable {Shared Input Choice : Type}

def Entry.exchange (entry : Entry Shared Input Call Reply Result Choice) : Exchange Call Reply :=
  ⟨entry.request, entry.reply⟩

theorem Path.reaches {first last : Program Call Reply Result}
    {entries : List (Entry Shared Input Call Reply Result Choice)} (path : Path first entries last) :
    first.Reaches (entries.map Entry.exchange) last := by
  induction path with
  | nil program => exact .here program
  | @cons entry rest resume last ended tail ih =>
      exact @Program.Reaches.call _ _ _ entry.exchange _ _ _ ih

/-- Each entry of a run keeps to the rule that its task's program obeys. -/
theorem Tracked.obeys {Drift : Type}
    {machine : Machine Shared Input Call Reply Result Choice Drift}
    {pool : Pool Shared Input Call Reply Result Choice} (tracked : Tracked machine pool)
    {may : Input → List (Exchange Call Reply) → Call → Prop}
    {post : List (Exchange Call Reply) → Result → Prop}
    (obeys : ∀ input, (machine.start input).Obeys (may input) post [])
    {earlier later : List (Entry Shared Input Call Reply Result Choice)}
    {entry : Entry Shared Input Call Reply Result Choice}
    (split : pool.log = earlier ++ entry :: later) :
    may entry.input
      ((earlier.filter fun other => decide (other.task = entry.task)).map Entry.exchange)
      entry.request := by
  obtain ⟨program, path, _⟩ := tracked.path_of_mem (show entry ∈ pool.log by simp [split])
  have kept := (path.reaches.obeys (obeys entry.input)).2
  have own : (pool.entriesOf entry.task).map Entry.exchange =
      (earlier.filter fun other => decide (other.task = entry.task)).map Entry.exchange ++
        entry.exchange ::
          (later.filter fun other => decide (other.task = entry.task)).map Entry.exchange := by
    simp [Pool.entriesOf, split, List.filter_append]
  have may := kept _ _ _ own
  rwa [List.nil_append] at may

end Programs

end Interleaving
