import FusionPipeline.RegexScan

/-! What one round of the rewriter does at its cursor, and what every round keeps. -/

namespace FusionPipeline.Regex

structure Move where
  classState : ClassState
  afterQuantifier : Bool
  written : Option (List UInt8)
  length : Nat

def move (classState : ClassState) (afterQuantifier : Bool) (rest : List UInt8) : Move :=
  if rest[0]? = some (b '\\') ∧ classState.inClass then ⟨classState, afterQuantifier, none, 2⟩
  else
    match classState.step rest 0 with
    | (next, some consumed) => ⟨next, false, none, consumed⟩
    | (next, none) =>
        if rest[0]? = some (b '\\') then
          match escapedReference rest with
          | some length => ⟨next, false, some emptyGroup, length⟩
          | none => ⟨next, false, none, 2⟩
        else if afterQuantifier ∧ rest[0]? = some (b '+') then ⟨next, false, some [], 1⟩
        else
          match if rest[0]? = some (b '(') then groupRewrite rest else none with
          | some (replacement, length) =>
              ⟨next, (rest[0]?.map isQuantifier).getD false, some replacement, length⟩
          | none => ⟨next, (rest[0]?.map isQuantifier).getD false, none, 1⟩

def Move.perform (made : Move) (pattern : List UInt8) (out : Desugared) (i : Nat) :
    Except Panic DesugarState :=
  match made.written with
  | none =>
      (out.pushRange pattern i (i + made.length)).map fun out =>
        ⟨out, made.classState, made.afterQuantifier, i + made.length⟩
  | some replacement =>
      .ok ⟨out.pushReplacement replacement i, made.classState, made.afterQuantifier,
        i + made.length⟩

theorem ClassState.step_drop (state : ClassState) (bytes : List UInt8) (i : Nat) :
    state.step (bytes.drop i) 0 = state.step bytes i := by
  simp [ClassState.step]

theorem pushReplacement_nil (out : Desugared) (i : Nat) : out.pushReplacement [] i = out := by
  simp [Desugared.pushReplacement]

theorem desugarStep_eq (pattern : List UInt8) (state : DesugarState) :
    desugarStep pattern state =
      (move state.classState state.afterQuantifier (pattern.drop state.i)).perform pattern
        state.out state.i := by
  have here : (pattern.drop state.i)[0]? = pattern[state.i]? := by simp
  simp only [desugarStep, move, here, ClassState.step_drop]
  split
  · rfl
  · rcases state.classState.step pattern state.i with ⟨next, _ | consumed⟩
    · dsimp only
      split
      · cases escapedReference (pattern.drop state.i) <;> rfl
      · split
        · simp [Move.perform, pushReplacement_nil]
        · rcases (if pattern[state.i]? = some (b '(') then groupRewrite (pattern.drop state.i)
            else none) with _ | ⟨replacement, length⟩ <;> rfl
    · rfl

theorem closerOf_ascii {opener closer : UInt8} (closed : closerOf opener = some closer) :
    closer.toNat < 0x80 := by
  simp only [closerOf] at closed
  split at closed
  · rw [← Option.some.inj closed]
    decide
  · split at closed
    · rw [← Option.some.inj closed]
      decide
    · split at closed
      · rw [← Option.some.inj closed]
        decide
      · exact absurd closed (by simp)

def EndsAscii (rest : List UInt8) (length : Nat) : Prop :=
  ∃ before byte, length = before + 1 ∧ rest[before]? = some byte ∧ byte.toNat < 0x80

theorem bracketedLen_endsAscii {rest : List UInt8} {length : Nat}
    (bracketed : bracketedLen rest = some length) : EndsAscii rest length := by
  cases rest with
  | nil => simp [bracketedLen] at bracketed
  | cons opener inner =>
      simp only [bracketedLen, Option.bind_eq_some_iff, Option.map_eq_some_iff] at bracketed
      obtain ⟨closer, closed, position, found, rfl⟩ := bracketed
      rw [List.findIdx?_eq_some_iff_getElem] at found
      obtain ⟨inside, same, _⟩ := found
      refine ⟨position + 1, closer, rfl, ?_, closerOf_ascii closed⟩
      rw [List.getElem?_cons_succ, List.getElem?_eq_getElem inside]
      simpa using same

theorem escapedReference_endsAscii {rest : List UInt8} {length : Nat}
    (read : escapedReference rest = some length) : EndsAscii rest length := by
  simp only [escapedReference] at read
  split at read
  · exact absurd read (by simp)
  next next atNext =>
    split at read
    next digit =>
      refine ⟨1, next, (Option.some.inj read).symm, atNext, ?_⟩
      have upper : next.toNat ≤ 57 := UInt8.le_iff_toNat_le.mp digit.2
      omega
    · split at read
      · simp only [Option.map_eq_some_iff] at read
        obtain ⟨inner, bracketed, rfl⟩ := read
        obtain ⟨before, byte, rfl, atByte, ascii⟩ := bracketedLen_endsAscii bracketed
        refine ⟨before + 2, byte, by omega, ?_, ascii⟩
        rw [List.getElem?_drop] at atByte
        rwa [Nat.add_comm]
      · exact absurd read (by simp)

theorem endsAscii_of_isPrefixOf {start rest : List UInt8} (nonempty : start ≠ [])
    (ascii : ∀ byte ∈ start, byte.toNat < 0x80) (leads : start.isPrefixOf rest = true) :
    EndsAscii rest start.length := by
  obtain ⟨after, rfl⟩ := List.isPrefixOf_iff_prefix.mp leads
  have positive : 0 < start.length := List.length_pos_iff.mpr nonempty
  refine ⟨start.length - 1, start[start.length - 1], by omega, ?_, ascii _ (List.getElem_mem _)⟩
  rw [List.getElem?_append_left (by omega), List.getElem?_eq_getElem]

theorem groupRewrite_endsAscii {rest replacement : List UInt8} {length : Nat}
    (rewritten : groupRewrite rest = some (replacement, length)) : EndsAscii rest length := by
  simp only [groupRewrite] at rewritten
  split at rewritten
  next opener found =>
    obtain ⟨-, rfl⟩ := Prod.mk.inj (Option.some.inj rewritten)
    have every : ∀ opener ∈ openers, opener ≠ [] ∧ ∀ byte ∈ opener, byte.toNat < 0x80 := by
      decide
    have isOpener := every opener (List.mem_of_find?_eq_some found)
    have leads : opener.isPrefixOf rest = true := by simpa using List.find?_some found
    exact endsAscii_of_isPrefixOf isOpener.1 isOpener.2 leads
  · split at rewritten
    · simp only [Option.map_eq_some_iff, Prod.mk.injEq] at rewritten
      obtain ⟨position, found, -, rfl⟩ := rewritten
      rw [List.findIdx?_eq_some_iff_getElem] at found
      obtain ⟨inside, same, _⟩ := found
      refine ⟨position, b ')', rfl, ?_, by decide⟩
      rw [List.getElem?_eq_getElem inside]
      simpa using same
    · exact absurd rewritten (by simp)

theorem ClassState.step_consumed {state next : ClassState} {rest : List UInt8} {consumed : Nat}
    (stepped : state.step rest 0 = (next, some consumed)) :
    consumed = 1 ∨ consumed = 2 ∧ rest[0]? = some (b '[') ∧ rest[1]? = some (b '^') := by
  simp only [ClassState.step] at stepped
  split at stepped
  · left
    simpa using (Prod.mk.inj stepped).2.symm
  · split at stepped
    next opener =>
      have amount := Option.some.inj (Prod.mk.inj stepped).2
      split at amount
      next caret => exact Or.inr ⟨amount.symm, opener, caret⟩
      next => exact Or.inl amount.symm
    · exact absurd (Prod.mk.inj stepped).2 (by simp)

theorem ClassState.step_none {state next : ClassState} {rest : List UInt8}
    (stepped : state.step rest 0 = (next, none)) :
    next = state ∧ state.inClass = false ∧ rest[0]? ≠ some (b '[') := by
  simp only [ClassState.step] at stepped
  split at stepped
  · exact absurd (Prod.mk.inj stepped).2 (by simp)
  next outside =>
    split at stepped
    · exact absurd (Prod.mk.inj stepped).2 (by simp)
    next notOpener => exact ⟨(Prod.mk.inj stepped).1.symm, Bool.eq_false_iff.mpr outside, notOpener⟩

theorem move_copies {classState : ClassState} {afterQuantifier : Bool} {rest : List UInt8}
    (copied : (move classState afterQuantifier rest).written = none) :
    (move classState afterQuantifier rest).length = 1 ∨
      (move classState afterQuantifier rest).length = 2 ∧
        ∃ byte, rest[0]? = some byte ∧ byte.toNat < 0x80 := by
  have backslash : (b '\\').toNat < 0x80 := by decide
  have opener : (b '[').toNat < 0x80 := by decide
  revert copied
  rw [move]
  split
  next escaped => exact fun _ => Or.inr ⟨rfl, _, escaped.1, backslash⟩
  · rcases stepped : classState.step rest 0 with ⟨next, _ | consumed⟩
    · dsimp only
      split
      next atBackslash =>
        cases escapedReference rest with
        | none => exact fun _ => Or.inr ⟨rfl, _, atBackslash, backslash⟩
        | some length => intro copied; simp at copied
      · split
        · intro copied; simp at copied
        · rcases (if rest[0]? = some (b '(') then groupRewrite rest else none) with
            _ | ⟨replacement, length⟩
          · exact fun _ => Or.inl rfl
          · intro copied; simp at copied
    · intro _
      rcases ClassState.step_consumed stepped with one | ⟨two, atOpener, _⟩
      · exact Or.inl one
      · exact Or.inr ⟨two, _, atOpener, opener⟩

theorem move_replaces {classState : ClassState} {afterQuantifier : Bool}
    {rest replacement : List UInt8}
    (replaced : (move classState afterQuantifier rest).written = some replacement) :
    EndsAscii rest (move classState afterQuantifier rest).length := by
  revert replaced
  rw [move]
  split
  · intro replaced; simp at replaced
  · rcases stepped : classState.step rest 0 with ⟨next, _ | consumed⟩
    · dsimp only
      split
      · cases read : escapedReference rest with
        | none => intro replaced; simp at replaced
        | some length => exact fun _ => escapedReference_endsAscii read
      · split
        next possessive => exact fun _ => ⟨0, b '+', rfl, possessive.2, by decide⟩
        · rcases read : (if rest[0]? = some (b '(') then groupRewrite rest else none) with
            _ | ⟨rewritten, length⟩
          · intro replaced; simp at replaced
          · intro _
            split at read
            · exact groupRewrite_endsAscii read
            · exact absurd read (by simp)
    · intro replaced; simp at replaced

theorem move_length_pos (classState : ClassState) (afterQuantifier : Bool) (rest : List UInt8) :
    0 < (move classState afterQuantifier rest).length := by
  cases written : (move classState afterQuantifier rest).written with
  | none => rcases move_copies written with one | ⟨two, _⟩ <;> omega
  | some replacement =>
      obtain ⟨before, byte, length, _⟩ := move_replaces written
      omega

theorem perform_i {made : Move} {pattern : List UInt8} {out : Desugared} {i : Nat}
    {next : DesugarState} (performed : made.perform pattern out i = .ok next) :
    next.i = i + made.length ∧ next.classState = made.classState ∧
      next.afterQuantifier = made.afterQuantifier := by
  rw [Move.perform] at performed
  split at performed
  · cases pushed : out.pushRange pattern i (i + made.length) with
    | error panic => rw [pushed] at performed; cases performed
    | ok out =>
        rw [pushed] at performed
        rw [← Except.ok.inj performed]
        exact ⟨rfl, rfl, rfl⟩
  · rw [← Except.ok.inj performed]
    exact ⟨rfl, rfl, rfl⟩

theorem desugar_lowers (pattern : List UInt8) :
    Loop.Lowers (fun state : DesugarState => state.i < pattern.length) (desugarStep pattern)
      fun state => pattern.length - state.i := by
  intro state next going stepped
  rw [desugarStep_eq] at stepped
  have moved := (perform_i stepped).1
  have forward := move_length_pos state.classState state.afterQuantifier (pattern.drop state.i)
  have inside : state.i < pattern.length := by simpa using going
  show pattern.length - next.i < pattern.length - state.i
  omega

theorem desugar_stops (pattern : List UInt8) (state : DesugarState)
    (done : pattern.length - state.i = 0) : decide (state.i < pattern.length) = false := by
  rw [decide_eq_false_iff_not]
  omega

theorem desugar_done {pattern : List UInt8} {state : DesugarState} (past : pattern.length ≤ state.i)
    (fuel : Nat) :
    Loop.run (fun state : DesugarState => state.i < pattern.length) (desugarStep pattern) fuel state =
      .ok state := by
  apply Loop.run_done
  rw [decide_eq_false_iff_not]
  omega

end FusionPipeline.Regex
