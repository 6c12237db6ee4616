import FusionPipeline.RegexReading

/-! Where the scanner's class state agrees with the classes a pattern has. -/

namespace FusionPipeline.Regex

theorem Walks.stays {state next : ClassState} {value : UInt8} {text : List UInt8}
    {marks : List Bool} (inside : state.inClass = true) (notBackslash : value ≠ b '\\')
    (open_ : value ≠ b ']' ∨ state.classStart = true) (rest : Walks ⟨true, false⟩ text marks next) :
    Walks state (value :: text) (true :: marks) next := by
  have still : state.after value = ⟨true, false⟩ := by
    rcases open_ with notCloser | first
    · simp [ClassState.after, beq_eq_false_iff_ne.mpr notCloser]
    · simp [ClassState.after, first]
  have step := @Walks.member state next value text marks inside notBackslash (still ▸ rest)
  rwa [still] at step

theorem Walks.closes : Walks ⟨true, false⟩ [b ']'] [false] ⟨false, false⟩ :=
  Walks.member rfl (by decide) (Walks.done _)

theorem walks_closing : ∀ (body : List UInt8) (length : Nat), closing false body = some length →
    Walks ⟨true, false⟩ (body.take (length + 1)) (List.replicate length true ++ [false])
      ⟨false, false⟩
  | [], length, found => by simp [closing] at found
  | value :: after, length, found => by
      rw [closing] at found
      split at found
      next isBackslash =>
        cases after with
        | nil => simp [closing] at found
        | cons escaped more =>
            simp only [closing, Option.map_map, Option.map_eq_some_iff] at found
            obtain ⟨inner, atInner, rfl⟩ := found
            have rest := walks_closing more inner atInner
            subst isBackslash
            exact Walks.escape escaped rfl rest
      next notBackslash =>
        split at found
        next isCloser =>
          obtain rfl := Option.some.inj found
          subst isCloser
          exact Walks.closes
        next notCloser =>
          obtain ⟨inner, atInner, rfl⟩ := Option.map_eq_some_iff.mp found
          exact Walks.stays rfl notBackslash (Or.inl notCloser) (walks_closing after inner atInner)

theorem Unclosed.escape {state : ClassState} {more : List UInt8} (inside : state.inClass = true)
    (value : UInt8) (rest : Unclosed state more) : Unclosed state (b '\\' :: value :: more) := by
  obtain ⟨next, front, last, rfl, short, open_, walk⟩ := rest
  exact ⟨next, b '\\' :: value :: front, last, rfl, short, open_, Walks.escape value inside walk⟩

theorem Unclosed.stays {state : ClassState} {value : UInt8} {more : List UInt8}
    (inside : state.inClass = true) (notBackslash : value ≠ b '\\')
    (open_ : value ≠ b ']' ∨ state.classStart = true) (rest : Unclosed ⟨true, false⟩ more) :
    Unclosed state (value :: more) := by
  obtain ⟨next, front, last, rfl, short, still, walk⟩ := rest
  exact ⟨next, value :: front, last, rfl, short, still, Walks.stays inside notBackslash open_ walk⟩

theorem Unclosed.nil {state : ClassState} (inside : state.inClass = true) : Unclosed state [] :=
  ⟨state, [], [], rfl, Or.inl rfl, inside, Walks.done state⟩

theorem Unclosed.dangling {state : ClassState} (inside : state.inClass = true) :
    Unclosed state [b '\\'] :=
  ⟨state, [], [b '\\'], rfl, Or.inr rfl, inside, Walks.done state⟩

theorem unclosed_of_closing : ∀ body : List UInt8, closing false body = none →
    Unclosed ⟨true, false⟩ body ∧ Unclosed ⟨true, true⟩ body
  | [], _ => ⟨Unclosed.nil rfl, Unclosed.nil rfl⟩
  | value :: after, unclosed => by
      rw [closing] at unclosed
      split at unclosed
      next isBackslash =>
        subst isBackslash
        cases after with
        | nil => exact ⟨Unclosed.dangling rfl, Unclosed.dangling rfl⟩
        | cons escaped more =>
            simp only [closing, Option.map_map, Option.map_eq_none_iff] at unclosed
            have rest := unclosed_of_closing more unclosed
            exact ⟨rest.1.escape rfl escaped, rest.2.escape rfl escaped⟩
      next notBackslash =>
        split at unclosed
        · exact absurd unclosed (by simp)
        next notCloser =>
          have rest := (unclosed_of_closing after (Option.map_eq_none_iff.mp unclosed)).1
          exact ⟨rest.stays rfl notBackslash (Or.inl notCloser),
            rest.stays rfl notBackslash (Or.inl notCloser)⟩

/-- From its opening the class state misses the `]` of a class that holds only escapes, which
never clear its first-member flag. -/
theorem walks_start_closing : ∀ (body : List UInt8) (length : Nat),
    closing false body = some length →
    if escapes false (body.take length) then
      Walks ⟨true, true⟩ (body.take (length + 1)) (List.replicate (length + 1) true) ⟨true, false⟩
    else
      Walks ⟨true, true⟩ (body.take (length + 1)) (List.replicate length true ++ [false])
        ⟨false, false⟩
  | [], length, found => by simp [closing] at found
  | value :: after, length, found => by
      rw [closing] at found
      split at found
      next isBackslash =>
        cases after with
        | nil => simp [closing] at found
        | cons escaped more =>
            simp only [closing, Option.map_map, Option.map_eq_some_iff] at found
            obtain ⟨inner, atInner, rfl⟩ := found
            have rest := walks_start_closing more inner atInner
            subst isBackslash
            have same : escapes false ((b '\\' :: escaped :: more).take (inner + 1 + 1)) =
                escapes false (more.take inner) := by
              simp [escapes]
            simp only [Function.comp_apply, same]
            split at rest
            next only => rw [if_pos only]; exact Walks.escape escaped rfl rest
            next mixed => rw [if_neg mixed]; exact Walks.escape escaped rfl rest
      next notBackslash =>
        split at found
        next isCloser =>
          obtain rfl := Option.some.inj found
          subst isCloser
          exact Walks.stays rfl notBackslash (Or.inr rfl) (Walks.done _)
        next notCloser =>
          obtain ⟨inner, atInner, rfl⟩ := Option.map_eq_some_iff.mp found
          have mixed : escapes false ((value :: after).take (inner + 1)) = false := by
            simp [escapes, notBackslash]
          rw [mixed, if_neg (by decide)]
          exact Walks.stays rfl notBackslash (Or.inl notCloser) (walks_closing after inner atInner)

theorem walks_classEnd {body : List UInt8} {length : Nat} (found : classEnd body = some length) :
    if !(body.take length).isEmpty && escapes false (body.take length) then
      Walks ⟨true, true⟩ (body.take (length + 1)) (List.replicate (length + 1) true) ⟨true, false⟩
    else
      Walks ⟨true, true⟩ (body.take (length + 1)) (List.replicate length true ++ [false])
        ⟨false, false⟩ := by
  cases body with
  | nil => simp [classEnd] at found
  | cons value after =>
      rw [classEnd] at found
      split at found
      next literal =>
        obtain ⟨inner, atInner, rfl⟩ := Option.map_eq_some_iff.mp found
        have mixed : escapes false ((value :: after).take (inner + 1)) = false := by
          rw [literal]
          rfl
        rw [mixed, Bool.and_false, if_neg (by decide)]
        exact Walks.stays rfl (by rw [literal]; decide) (Or.inr rfl)
          (walks_closing after inner atInner)
      next notCloser =>
        have members : (!((value :: after).take length).isEmpty) = true := by
          cases length with
          | zero =>
              rw [closing] at found
              split at found
              · simp at found
              · simp at found
          | succ fewer => simp
        rw [members, Bool.true_and]
        exact walks_start_closing _ length found

theorem walks_class {body : List UInt8} {length : Nat} (found : classEnd body = some length)
    {caret : List UInt8} (mixed : (Piece.charClass caret (body.take length) true).escapesOnly = false) :
    Walks ⟨true, true⟩ (body.take (length + 1)) (List.replicate length true ++ [false]) .default := by
  have walk := walks_classEnd found
  rw [if_neg] at walk
  · exact walk
  · exact Bool.eq_false_iff.mp mixed

theorem unclosed_of_classEnd {body : List UInt8} (unclosed : classEnd body = none) :
    Unclosed ⟨true, true⟩ body := by
  cases body with
  | nil => exact Unclosed.nil rfl
  | cons value after =>
      rw [classEnd] at unclosed
      split at unclosed
      next literal =>
        have rest := (unclosed_of_closing after (Option.map_eq_none_iff.mp unclosed)).1
        exact rest.stays rfl (by rw [literal]; decide) (Or.inr rfl)
      next => exact (unclosed_of_closing _ unclosed).2

def drive (special : List UInt8 → Option (List UInt8 × Nat)) (state : ClassState)
    (rest : List UInt8) : ClassState × Nat :=
  if state.inClass then
    if rest[0]? = some (b '\\') then (state, 2) else ((state.step rest 0).1, 1)
  else
    match special rest with
    | some (_, length) => (state, length)
    | none =>
        if rest[0]? = some (b '\\') then (state, 2)
        else
          match state.step rest 0 with
          | (next, some consumed) => (next, consumed)
          | (next, none) => (next, 1)

def marked (state next : ClassState) (length : Nat) : List Bool :=
  (state.inClass && next.inClass) :: List.replicate (length - 1) next.inClass

def drivenMarks (special : List UInt8 → Option (List UInt8 × Nat)) (state : ClassState)
    (rest : List UInt8) : List Bool :=
  match rest with
  | [] => []
  | value :: after =>
      let moved := drive special state (value :: after)
      (marked state moved.1 moved.2).take (after.length + 1) ++
        drivenMarks special moved.1 (after.drop (moved.2 - 1))
termination_by rest.length
decreasing_by simp only [List.length_cons, List.length_drop]; omega

variable {special : List UInt8 → Option (List UInt8 × Nat)}

theorem driven_walks {state next : ClassState} {text : List UInt8} {marks : List Bool}
    (walk : Walks state text marks next) (more : List UInt8) :
    drivenMarks special state (text ++ more) = marks ++ drivenMarks special next more := by
  induction walk with
  | done => rfl
  | escape value inside rest ih =>
      rw [List.cons_append, drivenMarks]
      simp [drive, inside, marked, ih]
  | member inside notBackslash rest ih =>
      rw [List.cons_append, drivenMarks]
      simp [drive, inside, notBackslash, marked, ClassState.step_member, ih]

theorem driven_unclosed {state : ClassState} {body : List UInt8} (unclosed : Unclosed state body) :
    drivenMarks special state body = List.replicate body.length true := by
  obtain ⟨next, front, last, rfl, short, open_, walk⟩ := unclosed
  rw [driven_walks walk, List.length_append, List.replicate_add]
  rcases short with rfl | rfl
  · rw [drivenMarks]
    rfl
  · rw [drivenMarks]
    simp [drive, open_, marked, drivenMarks]

theorem marked_default (length : Nat) :
    marked .default .default length = List.replicate (length - 1 + 1) false := by
  rfl

theorem driven_cons {piece : Piece} {rest : List Piece} {front marks : List Bool}
    (plain : piece.escapesOnly = false) (same : front = piece.marks)
    (ih : marks = rest.flatMap Piece.marks ↔ ∀ piece ∈ rest, piece.escapesOnly = false) :
    front ++ marks = (piece :: rest).flatMap Piece.marks ↔
      ∀ other ∈ piece :: rest, other.escapesOnly = false := by
  rw [List.flatMap_cons, same, List.append_cancel_left_eq, ih, List.forall_mem_cons, plain]
  simp

theorem caretLength_le (after : List UInt8) : caretLength after ≤ after.length := by
  rw [caretLength]
  split
  next caret =>
    have inside := (List.getElem?_eq_some_iff.mp caret).1
    omega
  next => omega

theorem drive_opener (plainOpener : ∀ after, special (b '[' :: after) = none)
    (after : List UInt8) :
    drive special .default (b '[' :: after) = (⟨true, true⟩, 1 + caretLength after) := by
  have outside : (b '[' : UInt8) ≠ b '\\' := by decide
  simp [drive, ClassState.default, plainOpener, outside, ClassState.step, caretLength]

theorem closing_lt {body : List UInt8} {escaped : Bool} {length : Nat}
    (found : closing escaped body = some length) : length < body.length := by
  induction body generalizing escaped length with
  | nil => simp [closing] at found
  | cons value after ih =>
      have deeper (flag : Bool) (inner : (closing flag after).map (· + 1) = some length) :
          length < (value :: after).length := by
        obtain ⟨before, atInner, rfl⟩ := Option.map_eq_some_iff.mp inner
        have below := ih atInner
        rw [List.length_cons]
        omega
      cases escaped with
      | true => exact deeper false found
      | false =>
          rw [closing] at found
          split at found
          · exact deeper true found
          · split at found
            · rw [← Option.some.inj found, List.length_cons]
              omega
            · exact deeper false found

theorem classEnd_lt {body : List UInt8} {length : Nat} (found : classEnd body = some length) :
    length < body.length := by
  cases body with
  | nil => simp [classEnd] at found
  | cons value after =>
      rw [classEnd] at found
      split at found
      · obtain ⟨before, atInner, rfl⟩ := Option.map_eq_some_iff.mp found
        have below := closing_lt atInner
        rw [List.length_cons]
        omega
      · exact closing_lt found

/-- One class: told apart exactly when it holds only escapes, or what follows it is. -/
theorem driven_class (plainOpener : ∀ after, special (b '[' :: after) = none) (after : List UInt8)
    (ih : ∀ later : List UInt8, later.length ≤ after.length →
      (drivenMarks special .default later = (pieces special later).flatMap Piece.marks ↔
        ∀ piece ∈ pieces special later, piece.escapesOnly = false)) :
    let moved := drive special .default (b '[' :: after)
    let body := after.drop (caretLength after)
    let read := match classEnd body with
      | some length =>
          Piece.charClass (after.take (caretLength after)) (body.take length) true ::
            pieces special (body.drop (length + 1))
      | none => [Piece.charClass (after.take (caretLength after)) body false]
    (marked .default moved.1 moved.2).take (after.length + 1) ++
        drivenMarks special moved.1 (after.drop (moved.2 - 1)) = read.flatMap Piece.marks ↔
      ∀ piece ∈ read, piece.escapesOnly = false := by
  intro moved body read
  have short := caretLength_le after
  have opening : (marked .default moved.1 moved.2).take (after.length + 1) =
      false :: List.replicate (caretLength after) true := by
    simp only [moved, drive_opener plainOpener, marked, ClassState.default, Bool.false_and]
    rw [List.take_succ_cons, List.take_replicate]
    congr 2
    omega
  have rest : after.drop (moved.2 - 1) = body := by
    simp only [moved, drive_opener plainOpener, body]
    congr 1
    omega
  have state : moved.1 = ⟨true, true⟩ := by simp only [moved, drive_opener plainOpener]
  have caret : (after.take (caretLength after)).length = caretLength after := by
    rw [List.length_take]
    omega
  rw [opening, rest, state]
  cases found : classEnd body with
  | none =>
      have whole := @driven_unclosed special _ _ (unclosed_of_classEnd found)
      simp only [read, found, whole]
      simp [Piece.marks, Piece.escapesOnly, caret]
  | some length =>
      have walk := walks_classEnd found
      have inside := classEnd_lt found
      have members : (body.take length).length = length := by
        rw [List.length_take]
        omega
      have walked (next : ClassState) (marks : List Bool)
          (run : Walks ⟨true, true⟩ (body.take (length + 1)) marks next) :
          drivenMarks special ⟨true, true⟩ body =
            marks ++ drivenMarks special next (body.drop (length + 1)) := by
        rw [← driven_walks run, List.take_append_drop]
      have joined (mark : Bool) (more : List Bool) :
          false :: List.replicate (caretLength after) true ++
              (List.replicate length true ++ mark :: more) =
            (false :: List.replicate (caretLength after + length) true) ++ mark :: more := by
        rw [List.replicate_add, List.cons_append, List.cons_append, List.append_assoc]
      simp only [read, found]
      split at walk
      next only =>
        -- The code leaves the class open where its text closes it.
        have isOnly : (Piece.charClass (after.take (caretLength after)) (body.take length)
            true).escapesOnly = true := only
        refine ⟨fun same => ?_, fun mixed => ?_⟩
        · rw [walked _ _ walk, List.replicate_succ', List.append_assoc, List.singleton_append,
            joined, List.flatMap_cons, Piece.marks, caret, members, if_pos rfl, List.append_assoc,
            List.append_cancel_left_eq] at same
          exact absurd (List.cons.inj same).1 (by decide)
        · have here := mixed _ List.mem_cons_self
          rw [isOnly] at here
          exact absurd here (by decide)
      next mixed =>
        rw [walked _ _ walk, List.append_assoc, List.singleton_append, joined, List.append_cons]
        apply driven_cons
        · exact Bool.eq_false_iff.mpr mixed
        · rw [Piece.marks, caret, members, if_pos rfl]
        · exact ih _ (by simp only [body, List.length_drop]; omega)

/-- The class state marks the bytes of a pattern as its classes lie exactly when no class
holds only escapes. -/
theorem driven_iff (plainOpener : ∀ after, special (b '[' :: after) = none)
    (forward : ∀ rest replacement length, special rest = some (replacement, length) →
      0 < length ∧ length ≤ rest.length) (rest : List UInt8) :
    drivenMarks special .default rest = (pieces special rest).flatMap Piece.marks ↔
      ∀ piece ∈ pieces special rest, piece.escapesOnly = false := by
  induction size : rest.length using Nat.strongRecOn generalizing rest with
  | _ n ih =>
      subst size
      cases rest with
      | nil => simp [drivenMarks, pieces]
      | cons value after =>
          rw [drivenMarks, pieces]
          cases taken : special (value :: after) with
          | some rewrite =>
              obtain ⟨replacement, length⟩ := rewrite
              obtain ⟨positive, short⟩ := forward _ _ _ taken
              rw [List.length_cons] at short
              have moved : drive special .default (value :: after) = (.default, length) := by
                simp [drive, ClassState.default, taken]
              rw [moved]
              apply driven_cons rfl
              · rw [marked_default, List.take_replicate, Piece.marks, List.length_take,
                  List.length_cons]
                congr 1
                omega
              · exact ih _ (by simp only [List.length_drop, List.length_cons]; omega) _ rfl
          | none =>
              dsimp only
              split
              next isBackslash =>
                subst isBackslash
                have moved : drive special .default (b '\\' :: after) = (.default, 2) := by
                  simp [drive, ClassState.default, taken]
                rw [moved]
                apply driven_cons rfl
                · rw [marked_default, List.take_replicate, Piece.marks, List.length_take,
                    List.length_cons]
                  congr 1
                  omega
                · exact ih _ (by simp only [List.length_drop, List.length_cons]; omega) _ rfl
              next notBackslash =>
                split
                next isOpener =>
                  subst isOpener
                  exact driven_class plainOpener after fun later short =>
                    ih later.length (by rw [List.length_cons]; omega) later rfl
                next notOpener =>
                  have moved : drive special .default (value :: after) = (.default, 1) := by
                    simp [drive, ClassState.default, taken, notBackslash, ClassState.step, notOpener]
                  rw [moved]
                  apply driven_cons rfl
                  · simp [marked, ClassState.default, Piece.marks]
                  · exact ih _ (by simp) _ rfl

def marksOf (length : Nat) : List (ClassState × Nat) → List Bool
  | (state, i) :: (next, j) :: more =>
      (marked state next (j - i)).take (length - i) ++ marksOf length ((next, j) :: more)
  | _ => []

section Traces

variable {State Fault : Type} {more : State → Bool} {step : State → Except Fault State}
  {measure : State → Nat} (classState : State → ClassState) (cursor : State → Nat)
  {bytes : List UInt8}

theorem marksOf_trace (lowers : Loop.Lowers more step measure)
    (stops : ∀ state, measure state = 0 → more state = false)
    (inside : ∀ state, more state = true ↔ cursor state < bytes.length)
    (follows : ∀ state, cursor state < bytes.length → ∃ next, step state = .ok next ∧
      (classState next, cursor next) =
        ((drive special (classState state) (bytes.drop (cursor state))).1,
          cursor state + (drive special (classState state) (bytes.drop (cursor state))).2))
    (forward : ∀ state rest, 0 < (drive special state rest).2)
    (n fuel : Nat) (state : State) (left : bytes.length - cursor state ≤ n)
    (enough : measure state ≤ fuel) :
    marksOf bytes.length ((Loop.trace more step fuel state).map fun state =>
        (classState state, cursor state)) =
      drivenMarks special (classState state) (bytes.drop (cursor state)) := by
  induction n generalizing state with
  | zero =>
      have done : more state = false := by
        rw [Bool.eq_false_iff, Ne, inside]
        omega
      rw [Loop.trace_done done, List.drop_eq_nil_of_le (by omega), drivenMarks]
      rfl
  | succ n ih =>
      by_cases going : cursor state < bytes.length
      · obtain ⟨next, stepped, driven⟩ := follows state going
        obtain ⟨atClass, atCursor⟩ := Prod.mk.inj driven
        have more_ := (inside state).mpr going
        have lower := lowers state next more_ stepped
        have ahead := forward (classState state) (bytes.drop (cursor state))
        have rest := ih next (by omega) (by omega)
        rw [Loop.trace_unfold lowers stops enough more_ stepped, List.map_cons]
        obtain ⟨later, fromNext⟩ := @Loop.trace_head State Fault more step fuel next
        have start : bytes.drop (cursor state) =
            bytes[cursor state] :: bytes.drop (cursor state + 1) := List.drop_eq_getElem_cons going
        rw [fromNext, List.map_cons] at rest ⊢
        rw [marksOf, rest, start, drivenMarks, ← start, atClass, atCursor, Nat.add_sub_cancel_left,
          List.drop_drop, List.length_drop]
        congr 2
        · omega
        · congr 1
          omega
      · have done : more state = false := by
          rw [Bool.eq_false_iff, Ne, inside]
          exact going
        rw [Loop.trace_done done, List.drop_eq_nil_of_le (by omega), drivenMarks]
        rfl

end Traces

end FusionPipeline.Regex
