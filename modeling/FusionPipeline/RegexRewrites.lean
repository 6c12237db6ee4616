import FusionPipeline.RegexGuards

/-! The rewriter on ASCII patterns: what it marks as class and the text it returns. -/

namespace FusionPipeline.Regex

open Loop (lt_of_drop drop_append)

theorem rewriteAt_endsAscii {rest replacement : List UInt8} {length : Nat}
    (taken : rewriteAt rest = some (replacement, length)) : EndsAscii rest length := by
  rw [rewriteAt] at taken
  split at taken
  · obtain ⟨found, read, same⟩ := Option.map_eq_some_iff.mp taken
    rw [← (Prod.mk.inj same).2]
    exact escapedReference_endsAscii read
  · split at taken
    · exact groupRewrite_endsAscii taken
    · exact absurd taken (by simp)

theorem rewriteAt_forward (rest replacement : List UInt8) (length : Nat)
    (taken : rewriteAt rest = some (replacement, length)) : 0 < length ∧ length ≤ rest.length := by
  obtain ⟨before, byte, rfl, here, _⟩ := rewriteAt_endsAscii taken
  have inside := (List.getElem?_eq_some_iff.mp here).1
  omega

theorem rewriteAt_opener (after : List UInt8) : rewriteAt (b '[' :: after) = none := by
  have notBackslash : ¬ b '[' = b '\\' := by decide
  have notGroup : ¬ b '[' = b '(' := by decide
  simp [rewriteAt, notBackslash, notGroup]

theorem move_drive (classState : ClassState) (afterQuantifier : Bool) (value : UInt8)
    (after : List UInt8) :
    ((move classState afterQuantifier (value :: after)).classState,
        (move classState afterQuantifier (value :: after)).length) =
      drive rewriteAt classState (value :: after) := by
  rw [move, drive]
  simp only [List.getElem?_cons_zero, Option.some.injEq]
  by_cases inside : classState.inClass = true
  · rw [if_pos inside]
    by_cases isBackslash : value = b '\\'
    · rw [if_pos ⟨isBackslash, inside⟩, if_pos isBackslash]
    · rw [if_neg (fun both => isBackslash both.1), if_neg isBackslash,
        ClassState.step_member inside]
  · rw [if_neg (fun both => inside both.2), if_neg inside]
    rcases stepped : classState.step (value :: after) 0 with ⟨next, _ | consumed⟩
    · obtain ⟨rfl, _, _⟩ := ClassState.step_none stepped
      dsimp only
      by_cases isBackslash : value = b '\\'
      · simp only [rewriteAt, List.getElem?_cons_zero, Option.some.injEq, if_pos isBackslash]
        cases escapedReference (value :: after) <;> rfl
      · simp only [rewriteAt, List.getElem?_cons_zero, Option.some.injEq, if_neg isBackslash]
        by_cases group : value = b '('
        · have notPlus : ¬ (afterQuantifier = true ∧ value = b '+') := by
            rw [group]
            exact fun both => absurd both.2 (by decide)
          rw [if_neg notPlus]
          simp only [if_pos group]
          rcases groupRewrite (value :: after) with _ | ⟨replacement, length⟩ <;> rfl
        · simp only [if_neg group]
          split <;> rfl
    · have opener : value = b '[' := by
        have outside := Bool.eq_false_iff.mpr inside
        by_contra notOpener
        rw [ClassState.step, outside, if_neg (by decide), if_neg (by simpa using notOpener)] at stepped
        exact absurd (Prod.mk.inj stepped).2 (by simp)
      subst opener
      rw [rewriteAt_opener]
      dsimp only
      rw [if_neg (by decide)]

section Ascii

variable {bytes : List UInt8} (ascii : IsAscii bytes)

include ascii

theorem isBoundary_ascii {i : Nat} (within : i ≤ bytes.length) :
    Utf8.isBoundary bytes i = true := by
  by_cases last : i = bytes.length
  · rw [last]
    exact isBoundary_length bytes
  · have inside : i < bytes.length := by omega
    have plain : Utf8.isContinuation bytes[i] = false := by
      rw [Bool.eq_false_iff, Ne, Utf8.isContinuation_iff]
      have small := ascii bytes[i] (List.getElem_mem inside)
      omega
    simp [Utf8.isBoundary, List.getElem?_eq_getElem inside, plain]

theorem pushRange_ascii (out : Desugared) {i length : Nat} (inside : i < bytes.length) :
    ∃ pushed, out.pushRange bytes i (i + length) = .ok pushed ∧
      pushed.text = out.text ++ (bytes.drop i).take length := by
  have ordered : i ≤ min (i + length) bytes.length := by omega
  have start := isBoundary_ascii ascii (Nat.le_of_lt inside)
  have stop := isBoundary_ascii ascii (Nat.min_le_right (i + length) bytes.length)
  refine ⟨⟨out.text ++ (bytes.drop i).take (min (i + length) bytes.length - i), out.offsets ++
    List.range' i (min (i + length) bytes.length - i)⟩, ?_, ?_⟩
  · simp only [Desugared.pushRange, slice, ordered, start, stop, and_self, if_true, Except.map]
  · dsimp only
    congr 1
    rw [List.take_eq_take_iff, List.length_drop]
    omega

theorem desugarStep_ascii {state : DesugarState} (inside : state.i < bytes.length) :
    ∃ out, desugarStep bytes state = .ok ⟨out,
        (move state.classState state.afterQuantifier (bytes.drop state.i)).classState,
        (move state.classState state.afterQuantifier (bytes.drop state.i)).afterQuantifier,
        state.i + (move state.classState state.afterQuantifier (bytes.drop state.i)).length⟩ ∧
      out.text = state.out.text ++
        match (move state.classState state.afterQuantifier (bytes.drop state.i)).written with
        | none => (bytes.drop state.i).take
            (move state.classState state.afterQuantifier (bytes.drop state.i)).length
        | some replacement => replacement := by
  rw [desugarStep_eq, Move.perform]
  generalize move state.classState state.afterQuantifier (bytes.drop state.i) = made
  cases made.written with
  | none =>
      obtain ⟨pushed, copied, text⟩ := @pushRange_ascii bytes ascii state.out state.i made.length inside
      exact ⟨pushed, by rw [copied]; rfl, text⟩
  | some replacement => exact ⟨_, rfl, rfl⟩

end Ascii

def desugarMarks (bytes : List UInt8) : List Bool :=
  marksOf bytes.length ((Loop.trace (fun state => state.i < bytes.length) (desugarStep bytes)
    bytes.length ⟨⟨[], []⟩, .default, false, 0⟩).map fun state => (state.classState, state.i))

theorem desugarMarks_eq {bytes : List UInt8} (ascii : IsAscii bytes) :
    desugarMarks bytes = drivenMarks rewriteAt .default bytes := by
  have traced := @marksOf_trace rewriteAt DesugarState Panic (fun state => state.i < bytes.length)
    (desugarStep bytes) (fun state => bytes.length - state.i) DesugarState.classState
    DesugarState.i bytes (desugar_lowers bytes) (desugar_stops bytes) (fun state => by simp)
    (fun state inside => by
      obtain ⟨out, stepped, _⟩ := desugarStep_ascii ascii inside
      refine ⟨_, stepped, ?_⟩
      have start : bytes.drop state.i = bytes[state.i] :: bytes.drop (state.i + 1) :=
        List.drop_eq_getElem_cons inside
      rw [start, ← move_drive state.classState state.afterQuantifier])
    (fun state rest => drive_forward state rest rewriteAt
      fun rest replacement length taken => (rewriteAt_forward rest replacement length taken).1)
    bytes.length bytes.length ⟨⟨[], []⟩, .default, false, 0⟩ (by simp) (by simp)
  rw [desugarMarks, traced, List.drop_zero]

section Moves

variable (afterQuantifier : Bool)

theorem move_escape {state : ClassState} (inside : state.inClass = true) (value : UInt8)
    (rest : List UInt8) :
    move state afterQuantifier (b '\\' :: value :: rest) = ⟨state, afterQuantifier, none, 2⟩ := by
  rw [move, if_pos ⟨rfl, inside⟩]

theorem move_last {state : ClassState} (inside : state.inClass = true) :
    move state afterQuantifier [b '\\'] = ⟨state, afterQuantifier, none, 2⟩ := by
  rw [move, if_pos ⟨rfl, inside⟩]

theorem move_member {state : ClassState} (inside : state.inClass = true) {value : UInt8}
    (notBackslash : value ≠ b '\\') (rest : List UInt8) :
    move state afterQuantifier (value :: rest) = ⟨state.after value, false, none, 1⟩ := by
  have plain : ¬ ((value :: rest)[0]? = some (b '\\') ∧ state.inClass = true) := by
    rintro ⟨same, _⟩
    exact notBackslash (by simpa using same)
  rw [move, if_neg plain, ClassState.step_member inside]

theorem move_class (after : List UInt8) :
    move .default afterQuantifier (b '[' :: after) =
      ⟨⟨true, true⟩, false, none, 1 + caretLength after⟩ := by
  have plain : ¬ ((b '[' :: after)[0]? = some (b '\\') ∧ ClassState.default.inClass = true) := by
    rintro ⟨_, inside⟩
    exact absurd inside (by decide)
  have fed : ClassState.default.step (b '[' :: after) 0 =
      (⟨true, true⟩, some (1 + caretLength after)) := by
    simp [ClassState.step, ClassState.default, caretLength]
  rw [move, if_neg plain, fed]

variable {afterQuantifier} {value : UInt8} {after : List UInt8}

theorem move_outside (notOpener : value ≠ b '[') :
    move .default afterQuantifier (value :: after) =
      if value = b '\\' then
        match escapedReference (value :: after) with
        | some length => ⟨.default, false, some emptyGroup, length⟩
        | none => ⟨.default, false, none, 2⟩
      else if afterQuantifier ∧ value = b '+' then ⟨.default, false, some [], 1⟩
      else
        match if value = b '(' then groupRewrite (value :: after) else none with
        | some (replacement, length) =>
            ⟨.default, isQuantifier value, some replacement, length⟩
        | none => ⟨.default, isQuantifier value, none, 1⟩ := by
  have plain : ¬ ((value :: after)[0]? = some (b '\\') ∧ ClassState.default.inClass = true) := by
    rintro ⟨_, inside⟩
    exact absurd inside (by decide)
  have fed : ClassState.default.step (value :: after) 0 = (.default, none) := by
    simp [ClassState.step, ClassState.default, notOpener]
  rw [move, if_neg plain, fed]
  dsimp only [List.getElem?_cons_zero, Option.map_some, Option.getD_some]
  by_cases isBackslash : value = b '\\'
  · refine (if_pos (congrArg some isBackslash)).trans (Eq.trans ?_ (if_pos isBackslash).symm)
    cases escapedReference (value :: after) <;> rfl
  · have other : some value ≠ some (b '\\') := fun same => isBackslash (Option.some.inj same)
    refine (if_neg other).trans (Eq.trans ?_ (if_neg isBackslash).symm)
    have plus : some value = some (b '+') ↔ value = b '+' := Option.some_inj
    have opens : some value = some (b '(') ↔ value = b '(' := Option.some_inj
    have chosen : (if some value = some (b '(') then groupRewrite (value :: after) else none) =
        if value = b '(' then groupRewrite (value :: after) else none := if_congr opens rfl rfl
    rw [chosen]
    exact if_congr (and_congr_right fun _ => plus) rfl rfl

theorem move_rewrite {replacement : List UInt8} {length : Nat}
    (taken : rewriteAt (value :: after) = some (replacement, length)) :
    move .default afterQuantifier (value :: after) = ⟨.default, false, some replacement, length⟩ := by
  have notOpener : value ≠ b '[' := by
    rintro rfl
    rw [rewriteAt_opener] at taken
    cases taken
  rw [move_outside notOpener]
  rw [rewriteAt] at taken
  simp only [List.getElem?_cons_zero, Option.some.injEq] at taken
  by_cases isBackslash : value = b '\\'
  · rw [if_pos isBackslash] at taken ⊢
    obtain ⟨found, read, same⟩ := Option.map_eq_some_iff.mp taken
    obtain ⟨rfl, rfl⟩ := Prod.mk.inj same
    rw [read]
  · rw [if_neg isBackslash] at taken ⊢
    by_cases group : value = b '('
    · rw [if_pos group] at taken
      have notPlus : ¬ (afterQuantifier = true ∧ value = b '+') := by
        rw [group]
        exact fun both => absurd both.2 (by decide)
      have notQuantifier : isQuantifier value = false := by
        rw [group]
        decide
      rw [if_neg notPlus, if_pos group, taken, notQuantifier]
    · rw [if_neg group] at taken
      cases taken

theorem move_kept (notOpener : value ≠ b '[') (kept : rewriteAt (value :: after) = none) :
    move .default afterQuantifier (value :: after) =
      if value = b '\\' then ⟨.default, false, none, 2⟩
      else if afterQuantifier ∧ value = b '+' then ⟨.default, false, some [], 1⟩
      else ⟨.default, isQuantifier value, none, 1⟩ := by
  rw [move_outside notOpener]
  rw [rewriteAt] at kept
  simp only [List.getElem?_cons_zero, Option.some.injEq] at kept
  by_cases isBackslash : value = b '\\'
  · rw [if_pos isBackslash] at kept ⊢
    rw [if_pos isBackslash, Option.map_eq_none_iff.mp kept]
  · rw [if_neg isBackslash] at kept ⊢
    rw [if_neg isBackslash, kept]

end Moves

theorem closing_closes {body : List UInt8} {escaped : Bool} {length : Nat}
    (found : closing escaped body = some length) : body[length]? = some (b ']') := by
  induction body generalizing escaped length with
  | nil => simp [closing] at found
  | cons value after ih =>
      have deeper (flag : Bool) (inner : (closing flag after).map (· + 1) = some length) :
          (value :: after)[length]? = some (b ']') := by
        obtain ⟨before, atInner, rfl⟩ := Option.map_eq_some_iff.mp inner
        rw [List.getElem?_cons_succ]
        exact ih atInner
      cases escaped with
      | true => exact deeper false found
      | false =>
          rw [closing] at found
          split at found
          · exact deeper true found
          · split at found
            next isCloser =>
              rw [← Option.some.inj found, List.getElem?_cons_zero, isCloser]
            · exact deeper false found

theorem classEnd_closes {body : List UInt8} {length : Nat} (found : classEnd body = some length) :
    body[length]? = some (b ']') := by
  cases body with
  | nil => simp [classEnd] at found
  | cons value after =>
      rw [classEnd] at found
      split at found
      · obtain ⟨before, atInner, rfl⟩ := Option.map_eq_some_iff.mp found
        rw [List.getElem?_cons_succ]
        exact closing_closes atInner
      · exact closing_closes found

def desugarRun (bytes : List UInt8) (state : DesugarState) : Except Panic DesugarState :=
  Loop.run (fun state => state.i < bytes.length) (desugarStep bytes) bytes.length state

def Writes (bytes : List UInt8) (classState : ClassState) (afterQuantifier : Bool) (i : Nat)
    (text : List UInt8) : Prop :=
  ∀ out, ∃ final, desugarRun bytes ⟨out, classState, afterQuantifier, i⟩ = .ok final ∧
    final.out.text = out.text ++ text

section Writes

variable {bytes : List UInt8} {classState : ClassState} {afterQuantifier : Bool} {i : Nat}

theorem writes_done (past : bytes.length ≤ i) : Writes bytes classState afterQuantifier i [] := by
  intro out
  refine ⟨_, desugar_done past bytes.length, ?_⟩
  rw [List.append_nil]

variable (ascii : IsAscii bytes)

include ascii

theorem writes_round {value : UInt8} {after text : List UInt8} {made : Move}
    (here : bytes.drop i = value :: after)
    (moved : move classState afterQuantifier (value :: after) = made)
    (later : Writes bytes made.classState made.afterQuantifier (i + made.length) text) :
    Writes bytes classState afterQuantifier i
      ((made.written.getD ((value :: after).take made.length)) ++ text) := by
  intro out
  obtain ⟨inside, _⟩ := lt_of_drop here
  obtain ⟨next, stepped, wrote⟩ := @desugarStep_ascii bytes ascii
    ⟨out, classState, afterQuantifier, i⟩ inside
  dsimp only at stepped wrote
  rw [here, moved] at stepped wrote
  obtain ⟨final, ran, ended⟩ := later next
  have unfolded := Loop.run_unfold (desugar_lowers bytes) (desugar_stops bytes)
    (show bytes.length - (DesugarState.mk out classState afterQuantifier i).i ≤ bytes.length by omega)
  rw [if_pos (by simpa using inside), stepped] at unfolded
  refine ⟨final, unfolded.trans ran, ?_⟩
  rw [ended, wrote, List.append_assoc]
  cases made.written <;> rfl

theorem writes_walks {state next : ClassState} {text written : List UInt8} {marks : List Bool}
    (walk : Walks state text marks next) {more : List UInt8}
    (here : bytes.drop i = text ++ more) (later : Writes bytes next false (i + text.length) written) :
    Writes bytes state false i (text ++ written) := by
  induction walk generalizing i with
  | done => exact later
  | @escape state next text marks value inside rest ih =>
      have atRest : bytes.drop (i + 2) = text ++ more :=
        @drop_append _ bytes i [b '\\', value] (text ++ more) here
      have rest := ih atRest (by
        rw [List.length_cons, List.length_cons] at later
        rwa [show i + 2 + text.length = i + (text.length + 1 + 1) by omega])
      exact writes_round ascii here (move_escape false inside value (text ++ more)) rest
  | @member state next value text marks inside notBackslash rest ih =>
      obtain ⟨_, _, atRest⟩ := lt_of_drop here
      have rest := ih atRest (by
        rw [List.length_cons] at later
        rwa [show i + 1 + text.length = i + (text.length + 1) by omega])
      exact writes_round ascii here (move_member false inside notBackslash (text ++ more)) rest

theorem writes_unclosed {state : ClassState} (unclosed : Unclosed state (bytes.drop i)) :
    Writes bytes state false i (bytes.drop i) := by
  obtain ⟨next, front, last, whole, short, open_, walk⟩ := unclosed
  have atEnd := drop_append whole
  rw [whole]
  apply writes_walks ascii walk whole
  rcases short with rfl | rfl
  · exact writes_done (List.drop_eq_nil_iff.mp atEnd)
  · have past := List.drop_eq_nil_iff.mp (lt_of_drop atEnd).2.2
    have ended : Writes bytes next false (i + front.length + 2) [] := writes_done (by omega)
    have round := writes_round ascii atEnd (move_last false open_) ended
    exact round

/-- A class is copied as it stands, and the pattern goes on after it. -/
theorem writes_class {after text : List UInt8} {length : Nat} (here : bytes.drop i = b '[' :: after)
    (found : classEnd (after.drop (caretLength after)) = some length)
    (mixed : (Piece.charClass (after.take (caretLength after))
      ((after.drop (caretLength after)).take length) true).escapesOnly = false)
    (later : Writes bytes .default false (i + (caretLength after + length + 2)) text) :
    Writes bytes .default afterQuantifier i (b '[' :: after.take (caretLength after) ++
      (after.drop (caretLength after)).take length ++ [b ']'] ++ text) := by
  have short := caretLength_le after
  have within := classEnd_lt found
  rw [List.length_drop] at within
  have body : bytes.drop (i + (1 + caretLength after)) = after.drop (caretLength after) := by
    rw [← List.drop_drop, here, Nat.add_comm, List.drop_succ_cons]
  have whole : bytes.drop (i + (1 + caretLength after)) =
      (after.drop (caretLength after)).take (length + 1) ++
        (after.drop (caretLength after)).drop (length + 1) := by
    rw [body, List.take_append_drop]
  have size : ((after.drop (caretLength after)).take (length + 1)).length = length + 1 := by
    rw [List.length_take, List.length_drop]
    omega
  have members := writes_walks ascii (walks_class found mixed) whole (by
    rw [size]
    rwa [show i + (1 + caretLength after) + (length + 1) = i + (caretLength after + length + 2) by
      omega])
  have round := writes_round ascii here (move_class afterQuantifier after) members
  have opening : (b '[' :: after).take (1 + caretLength after) =
      b '[' :: after.take (caretLength after) := by
    rw [Nat.add_comm, List.take_succ_cons]
  have closer := classEnd_closes found
  rw [List.take_add_one, closer] at round
  simpa [opening] using round

theorem writes_openClass {after : List UInt8} (here : bytes.drop i = b '[' :: after)
    (found : classEnd (after.drop (caretLength after)) = none) :
    Writes bytes .default afterQuantifier i (rendered afterQuantifier
      [.charClass (after.take (caretLength after)) (after.drop (caretLength after)) false]) := by
  have body : bytes.drop (i + (1 + caretLength after)) = after.drop (caretLength after) := by
    rw [Nat.add_comm 1, ← List.drop_drop, here, List.drop_succ_cons]
  have members := writes_unclosed ascii (body ▸ unclosed_of_classEnd found)
  have round := writes_round ascii here (move_class afterQuantifier after) members
  rw [body] at round
  have opening : (b '[' :: after).take (1 + caretLength after) =
      b '[' :: after.take (caretLength after) := by
    rw [Nat.add_comm, List.take_succ_cons]
  simpa [rendered, opening] using round

/-- Over a pattern whose every class closes where its text says, the rewriter writes what the
pattern's pieces are rewritten to. -/
theorem writes_pieces (n : Nat) (left : bytes.length - i ≤ n)
    (clear : ∀ piece ∈ pieces rewriteAt (bytes.drop i), piece.escapesOnly = false) :
    Writes bytes .default afterQuantifier i
      (rendered afterQuantifier (pieces rewriteAt (bytes.drop i))) := by
  induction n using Nat.strongRecOn generalizing afterQuantifier i with
  | _ n ih =>
      cases rest : bytes.drop i with
      | nil =>
          rw [pieces]
          exact writes_done (List.drop_eq_nil_iff.mp rest)
      | cons value after =>
          obtain ⟨inside, atI, atNext⟩ := lt_of_drop rest
          have onward (next : Bool) (count : Nat) (positive : 0 < count)
              (clearLater : ∀ piece ∈ pieces rewriteAt (bytes.drop (i + count)),
                piece.escapesOnly = false) :
              Writes bytes .default next (i + count)
                (rendered next (pieces rewriteAt (bytes.drop (i + count)))) :=
            ih (bytes.length - (i + count)) (by omega) (Nat.le_refl _) clearLater
          have skipped (count : Nat) : bytes.drop (i + (count + 1)) = after.drop count := by
            rw [← List.drop_drop, rest, List.drop_succ_cons]
          rw [rest, pieces] at clear
          rw [pieces]
          cases taken : rewriteAt (value :: after) with
          | some rewrite =>
              obtain ⟨replacement, length⟩ := rewrite
              have positive := (rewriteAt_forward _ _ _ taken).1
              rw [taken] at clear
              dsimp only at clear ⊢
              rw [← skipped, Nat.sub_add_cancel positive] at clear ⊢
              exact writes_round ascii rest (move_rewrite taken)
                (onward false length positive fun piece member =>
                  clear piece (List.mem_cons_of_mem _ member))
          | none =>
              rw [taken] at clear
              dsimp only at clear ⊢
              by_cases isOpener : value = b '['
              · have notBackslash : value ≠ b '\\' := by
                  rw [isOpener]
                  decide
                rw [if_neg notBackslash, if_pos isOpener] at clear ⊢
                subst isOpener
                cases found : classEnd (after.drop (caretLength after)) with
                | some length =>
                    rw [found] at clear
                    dsimp only at clear ⊢
                    have short := caretLength_le after
                    have later : (after.drop (caretLength after)).drop (length + 1) =
                        bytes.drop (i + (caretLength after + length + 2)) := by
                      rw [List.drop_drop, skipped]
                      rfl
                    rw [later] at clear ⊢
                    exact writes_class ascii rest found (clear _ List.mem_cons_self)
                      (onward false _ (Nat.succ_pos _) fun piece member =>
                        clear piece (List.mem_cons_of_mem _ member))
                | none =>
                    exact writes_openClass ascii rest found
              · have kept := @move_kept afterQuantifier value after isOpener taken
                by_cases isBackslash : value = b '\\'
                · rw [if_pos isBackslash] at clear kept ⊢
                  rw [← skipped] at clear ⊢
                  exact writes_round ascii rest kept (onward false 2 (Nat.succ_pos _)
                    fun piece member => clear piece (List.mem_cons_of_mem _ member))
                · rw [if_neg isBackslash, if_neg isOpener] at clear ⊢
                  rw [if_neg isBackslash] at kept
                  rw [← List.drop_zero (l := after), ← skipped] at clear ⊢
                  by_cases possessive : afterQuantifier = true ∧ value = b '+'
                  · rw [if_pos possessive] at kept
                    rw [rendered, if_pos possessive]
                    exact writes_round ascii rest kept (onward false 1 (Nat.succ_pos _)
                      fun piece member => clear piece (List.mem_cons_of_mem _ member))
                  · rw [if_neg possessive] at kept
                    rw [rendered, if_neg possessive]
                    exact writes_round ascii rest kept (onward (isQuantifier value) 1
                      (Nat.succ_pos _) fun piece member =>
                        clear piece (List.mem_cons_of_mem _ member))

end Writes

end FusionPipeline.Regex
