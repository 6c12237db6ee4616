import FusionPipeline.DedupeRuns
import Mathlib.Data.List.Chain

/-! The holders of one key, in order, while no store call fails and the key does not expire. -/

namespace FusionPipeline.Dedupe

open Interleaving

section Chain

variable {dedupe : Dedupe} {key : String}
variable {pool : KeyPool dedupe key} {events : List (KeyEvent dedupe key)}

def Steady : KeyEvent dedupe key → Prop
  | .advance _ ending => ending = .answers
  | .drift _ => False
  | _ => True

def TakesOver (entry : KeyEntry dedupe key) (expected : Value) : Prop :=
  ∃ name value ttl, entry.request = .compareAndSet name expected value ttl

/-- `newer` replaced exactly the holder it was judged against, `older`. -/
structure Succeeds (older newer : KeyEntry dedupe key) : Prop where
  takesOver : TakesOver newer older.input.incoming.toBytes
  replaces : newer.before = some older.input.incoming.toBytes
  judged : newer.input.incoming.against older.input.incoming dedupe.window.duration = .windowOver

def WindowApart (older newer : KeyEntry dedupe key) : Prop :=
  older.input.incoming.ingestionTime.toNat + (windowNanos dedupe.window.duration).toNat ≤
    newer.input.incoming.ingestionTime.toNat

theorem Succeeds.windowApart {older newer : KeyEntry dedupe key} (succeeds : Succeeds older newer) :
    WindowApart older newer :=
  ((against_windowOver_iff _ _ _).mp succeeds.judged).2

/-- What the key holds and who held it before, in a steady run. -/
structure Chained (cell : Option Value) (log : List (KeyEntry dedupe key)) : Prop where
  held : cell = (holder? log).map Holder.toBytes
  succeeds : (writes log).IsChain Succeeds

theorem chained_answered {log : List (KeyEntry dedupe key)} {entry : KeyEntry dedupe key}
    (sound : Sound entry) (chained : Chained entry.before log) :
    Chained entry.after (log ++ [entry]) := by
  obtain ⟨held, succeeds⟩ := chained
  by_cases written : wrote entry = true
  · refine ⟨by rw [sound.leaves, holder?_concat]; simp [written], ?_⟩
    have grown : writes (log ++ [entry]) = writes log ++ [entry] := by
      simp [writes, List.filter_append, written]
    rw [grown, List.isChain_append]
    refine ⟨succeeds, List.isChain_singleton entry, ?_⟩
    intro older last newer same
    obtain rfl : entry = newer := by simpa using same
    have before : entry.before = some older.input.incoming.toBytes := by
      rw [held, holder?, Option.mem_def.mp last]
      rfl
    have writesKey : entry.request.writes entry.before = true := by
      simp only [wrote, Bool.and_eq_true] at written
      exact written.2
    rw [before] at writesKey
    cases request : entry.request with
    | setNx name value ttl =>
        rw [request] at writesKey
        cases writesKey
    | compareAndSet name expected value ttl =>
        rw [request] at writesKey
        obtain rfl : older.input.incoming.toBytes = expected := by
          simpa [StoreCall.writes] using writesKey
        refine ⟨⟨name, value, ttl, request⟩, before, ?_⟩
        rw [← againstValue_toBytes]
        exact sound.takesOver name _ value ttl request
  · refine ⟨by rw [sound.leaves, holder?_concat]; simp [written, held], ?_⟩
    simpa [writes, List.filter_append, written] using succeeds

theorem run_chained (ran : (workers dedupe key).run (unclaimed dedupe key) events = some pool)
    (steady : ∀ event ∈ events, Steady event) : pool.AllAlong Chained := by
  refine run_history Steady ran steady (run_sound ran) ?_ ?_ ?_
  · exact ⟨rfl, by simp [writes]⟩
  · intro cell log change expires
    exact False.elim expires
  · intro log entry index _ sound chained
    exact chained_answered sound chained

theorem windowApart_trans (dedupe : Dedupe) (key : String) :
    IsTrans (KeyEntry dedupe key) WindowApart :=
  ⟨fun _ _ _ first second => by simp only [WindowApart] at *; omega⟩

theorem Chained.apart {cell : Option Value} {log : List (KeyEntry dedupe key)}
    (chained : Chained cell log) : (writes log).Pairwise WindowApart := by
  have := windowApart_trans dedupe key
  exact (chained.succeeds.imp fun _ _ succeeds => succeeds.windowApart).pairwise

/-- No two writes take the key over from the same holder: the later one replaced a holder
at least as new as the earlier one. -/
theorem chain_takesOver_once {entries : List (KeyEntry dedupe key)}
    (sound : ∀ entry ∈ entries, Sound entry) (succeeds : entries.IsChain Succeeds)
    (apart : entries.Pairwise WindowApart) :
    entries.Pairwise fun older newer => ∀ expected, TakesOver older expected →
      ¬ TakesOver newer expected := by
  rw [List.pairwise_iff_getElem]
  intro i j iBound jBound before expected olderTakes newerTakes
  obtain ⟨previous, rfl⟩ : ∃ previous, j = previous + 1 := ⟨j - 1, by omega⟩
  have replaced := List.isChain_iff_getElem.mp succeeds previous jBound
  obtain ⟨name, value, ttl, request⟩ := newerTakes
  obtain ⟨name', value', ttl', request'⟩ := replaced.takesOver
  rw [request, StoreCall.compareAndSet.injEq] at request'
  obtain ⟨-, rfl, -, -⟩ := request'
  obtain ⟨name, value, ttl, request⟩ := olderTakes
  have judged := (sound _ (List.getElem_mem iBound)).takesOver name _ value ttl request
  rw [againstValue_toBytes, against_windowOver_iff] at judged
  have notNewer : entries[i].input.incoming.ingestionTime.toNat ≤
      entries[previous].input.incoming.ingestionTime.toNat := by
    rcases Nat.lt_or_eq_of_le (Nat.le_of_lt_succ before) with below | same
    · have ordered := List.pairwise_iff_getElem.mp apart i previous iBound (by omega) below
      simp only [WindowApart] at ordered
      omega
    · simp [same]
  have positive := windowNanos_pos dedupe.window
  omega

def refusedTakeover (entry : KeyEntry dedupe key) : Bool :=
  match entry.request, entry.reply with
  | .compareAndSet .., .ok (some _) => true
  | _, _ => false

def Exhausted (entries : List (KeyEntry dedupe key)) : Prop :=
  (entries.filter refusedTakeover).length = takeoverAttempts

def Remembers (log : List (KeyEntry dedupe key)) : Prop :=
  ∀ earlier entry later, log = earlier ++ entry :: later →
    entry.before = (holder? earlier).map Holder.toBytes

theorem holder?_append_quiet {first second : List (KeyEntry dedupe key)}
    (quiet : writes second = []) : holder? (first ++ second) = holder? first := by
  rw [holder?, writes, List.filter_append, show second.filter wrote = [] from quiet,
    List.append_nil]
  rfl

theorem takeover_refused_cases {delivery : Delivery dedupe key} {attempts : Nat} {holder : Value}
    {entries : List (KeyEntry dedupe key)} {last : StoreProgram StageOutput}
    (path : Path (dedupe.takeover delivery.context.state
      (dedupe.stateKey delivery.record delivery.context.recordMeta)
      delivery.incoming delivery.record (attempts + 1) holder) entries last)
    (refused : entries.filter refusedTakeover ≠ []) :
    ∃ entry tail current, entries = entry :: tail ∧ refusedTakeover entry = true ∧
      TakesOver entry holder ∧ entry.reply = .ok (some current) ∧
      Path (dedupe.takeover delivery.context.state
        (dedupe.stateKey delivery.record delivery.context.recordMeta)
        delivery.incoming delivery.record attempts current) tail last := by
  by_cases isOver : delivery.incoming.againstValue holder dedupe.window.duration = .windowOver
  · rw [takeover_eq delivery attempts holder isOver] at path
    rcases Path.call_cases path with ⟨empty, _⟩ |
      ⟨task, input, choice, before, after, reply, tail, equal, onward⟩
    · simp [empty] at refused
    · match reply with
      | .error error =>
          obtain ⟨empty, _⟩ := Path.done_cases onward
          simp [equal, empty, refusedTakeover] at refused
      | .ok none =>
          obtain ⟨empty, _⟩ := Path.done_cases onward
          simp [equal, empty, refusedTakeover] at refused
      | .ok (some current) =>
          exact ⟨_, tail, current, equal, rfl, ⟨_, _, _, rfl⟩, rfl, onward⟩
  · rw [takeover_settled delivery attempts holder isOver] at path
    obtain ⟨empty, _⟩ := Path.done_cases path
    simp [empty] at refused

theorem process_refused_cases {delivery : Delivery dedupe key} {entry : KeyEntry dedupe key}
    {tail : List (KeyEntry dedupe key)} {last : StoreProgram StageOutput}
    (path : Path (dedupe.process delivery.record delivery.context) (entry :: tail) last)
    (more : tail ≠ []) :
    refusedTakeover entry = false ∧ ∃ current, entry.reply = .ok (some current) ∧
      Path (dedupe.takeover delivery.context.state
        (dedupe.stateKey delivery.record delivery.context.recordMeta)
        delivery.incoming delivery.record takeoverAttempts current) tail last := by
  rw [process_eq delivery] at path
  rcases Path.call_cases path with ⟨empty, _⟩ |
    ⟨task, input, choice, before, after, reply, rest, equal, onward⟩
  · cases empty
  · obtain ⟨rfl, rfl⟩ := List.cons.inj equal
    match reply with
    | .error error => exact False.elim (more (Path.done_cases onward).1)
    | .ok none => exact False.elim (more (Path.done_cases onward).1)
    | .ok (some current) => exact ⟨rfl, current, rfl, onward⟩

theorem refused_takeovers_writes {delivery : Delivery dedupe key} {index attempts : Nat}
    {holder : Value} {entries : List (KeyEntry dedupe key)} (earlier rest : List (KeyEntry dedupe key))
    {last : StoreProgram StageOutput}
    (path : Path (dedupe.takeover delivery.context.state
      (dedupe.stateKey delivery.record delivery.context.recordMeta)
      delivery.incoming delivery.record attempts holder) entries last)
    (own : rest.filter (fun entry => decide (entry.task = index)) = entries)
    (sound : ∀ entry ∈ rest, Sound entry)
    (remembers : Remembers (earlier ++ rest))
    (found : (holder? earlier).map Holder.toBytes = some holder)
    (refused : (entries.filter refusedTakeover).length = attempts) :
    attempts ≤ ((writes rest).filter fun entry => decide (entry.task ≠ index)).length := by
  induction attempts generalizing holder earlier rest entries with
  | zero => exact Nat.zero_le _
  | succ attempts ih =>
      obtain ⟨entry, tail, current, equal, entryRefused, takes, reply, onward⟩ :=
        takeover_refused_cases path (by rintro empty; simp [empty] at refused)
      rw [equal, List.filter_cons_of_pos entryRefused, List.length_cons] at refused
      obtain ⟨before, after, rfl, others, _, tailOwn⟩ :=
        List.filter_eq_cons_iff.mp (own.trans equal)
      have entrySound := sound entry (by simp)
      obtain ⟨foundCurrent, notWrites⟩ := entrySound.current current reply
      have unwritten := entrySound.unwritten reply
      have held := remembers (earlier ++ before) entry after (by simp)
      rw [foundCurrent] at held
      -- The refusal means that the holder changed since it was read.
      have changed : current ≠ holder := by
        obtain ⟨name, value, ttl, request⟩ := takes
        intro same
        simp [request, foundCurrent, StoreCall.writes, same] at notWrites
      have written : 1 ≤ ((writes before).filter fun entry => decide (entry.task ≠ index)).length := by
        rw [List.filter_eq_self.mpr ?_, Nat.one_le_iff_ne_zero, Ne, List.length_eq_zero_iff]
        · intro quiet
          rw [holder?_append_quiet quiet, found, Option.some.injEq] at held
          exact changed held
        · intro other member
          simpa using others other (List.mem_filter.mp member).1
      have more := ih (earlier ++ before ++ [entry]) after onward tailOwn
        (fun other member => sound other (by simp [member]))
        (by simpa using remembers)
        (by rw [holder?_concat]; simp [unwritten, ← held])
        (by omega)
      simp only [writes, List.filter_append, List.filter_cons, unwritten, Bool.false_eq_true,
        ↓reduceIte, List.length_append] at written more ⊢
      omega

/-- A delivery whose takeover attempts were all refused was outrun by as many writes. -/
theorem exhausted_outrun
    (ran : (workers dedupe key).run (unclaimed dedupe key) events = some pool)
    (steady : ∀ event ∈ events, Steady event)
    {before between after : List (KeyEntry dedupe key)} {first last : KeyEntry dedupe key}
    (split : pool.log = before ++ first :: (between ++ last :: after))
    (same : last.task = first.task)
    (ends : ∀ entry ∈ before ++ after, entry.task ≠ first.task)
    (exhausted : Exhausted (pool.entriesOf first.task)) :
    takeoverAttempts ≤
      ((writes between).filter fun entry => decide (entry.task ≠ first.task)).length := by
  have chained := run_chained ran steady
  have sound := run_sound ran
  obtain ⟨program, path, _⟩ := (run_tracked ran).path_of_mem (show first ∈ pool.log by simp [split])
  have own : pool.entriesOf first.task =
      first :: (between ++ [last]).filter fun entry => decide (entry.task = first.task) := by
    have none : ∀ list ⊆ before ++ after,
        list.filter (fun entry => decide (entry.task = first.task)) = [] := by
      intro list inside
      simpa [List.filter_eq_nil_iff] using fun entry member => ends entry (inside member)
    simp [Pool.entriesOf, split, List.filter_append, none before, none after, same]
  rw [own] at path exhausted
  obtain ⟨notTakeover, current, reply, onward⟩ := process_refused_cases path (by simp [same])
  rw [Exhausted, List.filter_cons_of_neg (by simp [notTakeover])] at exhausted
  have found := chained.2 before first _ split |>.held
  rw [((sound first (by simp [split])).current current reply).1] at found
  have outrun := refused_takeovers_writes (before ++ [first]) (between ++ [last])
    onward rfl ?_ ?_ ?_ exhausted
  · by_cases written : wrote last = true <;>
      simpa [writes, List.filter_append, written, same] using outrun
  · intro entry member
    refine sound entry ?_
    rcases List.mem_append.mp member with inBetween | isLast <;> simp_all
  · intro earlier entry later equal
    refine (chained.2 earlier entry (later ++ after) ?_).held
    rw [split, show before ++ first :: (between ++ last :: after) =
      before ++ [first] ++ (between ++ [last]) ++ after by simp, equal]
    simp
  · rw [holder?_concat, (sound first (by simp [split])).unwritten reply]
    exact found.symm

/-- While no store call fails and the key does not expire, every write after the first takes
the key over from exactly the holder it was judged against, no holder is taken over from
twice, the holders' ingestion times lie at least the window apart, and a delivery outrun by
at most one write does not exhaust its takeover attempts. -/
theorem holder_chain
    (ran : (workers dedupe key).run (unclaimed dedupe key) events = some pool)
    (steady : ∀ event ∈ events, Steady event) :
    (writes pool.log).IsChain Succeeds ∧
    ((writes pool.log).Pairwise fun older newer => ∀ expected, TakesOver older expected →
      ¬ TakesOver newer expected) ∧
    (writes pool.log).Pairwise WindowApart ∧
    ∀ before first between last after,
      pool.log = before ++ first :: (between ++ last :: after) → last.task = first.task →
      (∀ entry ∈ before ++ after, entry.task ≠ first.task) →
      ((writes between).filter fun entry => decide (entry.task ≠ first.task)).length ≤ 1 →
      ¬ Exhausted (pool.entriesOf first.task) := by
  have chained := (run_chained ran steady).1
  have sound : ∀ entry ∈ writes pool.log, Sound entry :=
    fun entry member => run_sound ran entry (List.mem_filter.mp member).1
  refine ⟨chained.succeeds, chain_takesOver_once sound chained.succeeds chained.apart,
    chained.apart, ?_⟩
  intro before first between last after split same ends few exhausted
  have outrun := exhausted_outrun ran steady split same ends exhausted
  simp only [takeoverAttempts] at outrun
  omega

theorem holder_chain_ten_seconds_later :
    ∃ (events : List (KeyEvent tenSeconds tenSecondsKey)) (pool : KeyPool tenSeconds tenSecondsKey),
      (workers tenSeconds tenSecondsKey).run (unclaimed tenSeconds tenSecondsKey) events = some pool ∧
      ((writes pool.log).map fun entry => entry.input) = [ingestedAt 1 100, ingestedAt 2 110] ∧
      (writes pool.log).IsChain Succeeds ∧
      ((writes pool.log).Pairwise fun older newer => ∀ expected, TakesOver older expected →
        ¬ TakesOver newer expected) ∧
      (writes pool.log).Pairwise WindowApart ∧
      ∀ before first between last after,
        pool.log = before ++ first :: (between ++ last :: after) → last.task = first.task →
        (∀ entry ∈ before ++ after, entry.task ≠ first.task) →
        ((writes between).filter fun entry => decide (entry.task ≠ first.task)).length ≤ 1 →
        ¬ Exhausted (pool.entriesOf first.task) := by
  obtain ⟨claimed, first, claims, held, logged, _, same, written, _⟩ :=
    visit_free (unclaimed tenSeconds tenSecondsKey) (ingestedAt 1 100) rfl
  obtain ⟨last, refused, taken, takes, loggedBoth, unwritten, wroteTaken, sameTaken⟩ :=
    visit_over (ingestedAt 2 110) held (by decide)
  have ran := Transition.run_append_iff.mpr ⟨claimed, claims, takes⟩
  refine ⟨_, last, ran, ?_, holder_chain ran ?_⟩
  · simp [loggedBoth, logged, writes, written, unwritten, wroteTaken, same, sameTaken, unclaimed,
      Pool.initial]
  · simp [visit, Steady]

end Chain

end FusionPipeline.Dedupe
