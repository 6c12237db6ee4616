import FusionPipeline.LuaLexemes
import FusionPipeline.RegexSlices

/-! What one round of the scan can do, and what it does at each kind of lexeme. -/

namespace FusionPipeline.Lua

open Regex (b Panic)

theorem closes_iff (level : Nat) (byte : UInt8) (rest : List UInt8) :
    byte = b ']' ∧ (rest.take level).all (· == b '=') ∧ rest[level]? = some (b ']') ↔
      closing level <+: byte :: rest := by
  have inner : ∀ (level : Nat) (rest : List UInt8),
      (rest.take level).all (· == b '=') = true ∧ rest[level]? = some (b ']') ↔
        List.replicate level (b '=') ++ [b ']'] <+: rest := by
    intro level
    induction level with
    | zero =>
        intro rest
        cases rest <;> simp [List.cons_prefix_cons, eq_comm]
    | succ level ih =>
        intro rest
        cases rest with
        | nil => simp
        | cons first rest =>
            rw [List.replicate_succ, List.cons_append, List.cons_prefix_cons, ← ih]
            simp only [List.take_succ_cons, List.all_cons, Bool.and_eq_true, beq_iff_eq,
              List.getElem?_cons_succ]
            constructor
            · rintro ⟨⟨same, all⟩, last⟩
              exact ⟨same.symm, all, last⟩
            · rintro ⟨same, all, last⟩
              exact ⟨⟨same.symm, all⟩, last⟩
  rw [closing, List.cons_append, List.cons_prefix_cons, ← inner]
  constructor
  · rintro ⟨same, rest⟩
    exact ⟨same.symm, rest⟩
  · rintro ⟨same, rest⟩
    exact ⟨same.symm, rest⟩

theorem closing_length (level : Nat) : (closing level).length = level + 2 := by
  simp [closing]

theorem opening_length (level : Nat) : (opening level).length = level + 2 := by
  simp [opening]

theorem closing_sameLine (level : Nat) : (closing level).count (b '\n') = 0 := by
  rw [List.count_eq_zero]
  intro member
  simp only [closing, List.cons_append, List.mem_cons, List.mem_append, List.mem_replicate,
    List.not_mem_nil, or_false] at member
  rcases member with same | ⟨_, same⟩ | same <;> exact absurd same (by decide)

theorem opening_sameLine (level : Nat) : (opening level).count (b '\n') = 0 := by
  rw [List.count_eq_zero]
  intro member
  simp only [opening, List.cons_append, List.mem_cons, List.mem_append, List.mem_replicate,
    List.not_mem_nil, or_false] at member
  rcases member with same | ⟨_, same⟩ | same <;> exact absurd same (by decide)

theorem count_cons_newline (byte : UInt8) (rest : List UInt8) :
    (byte :: rest).count (b '\n') = rest.count (b '\n') + if byte = b '\n' then 1 else 0 := by
  rw [List.count_cons]
  congr 1
  by_cases same : byte = b '\n' <;> simp [same]

theorem closeLength_newlines (level : Nat) (rest : List UInt8) :
    (closeLength level rest).2 = (rest.take (closeLength level rest).1).count (b '\n') := by
  induction rest with
  | nil => rfl
  | cons byte rest ih =>
      rw [closeLength]
      split
      next closes =>
        obtain ⟨more, whole⟩ := (closes_iff level byte rest).mp closes
        rw [← whole]
        show 0 = _
        rw [List.take_left' (closing_length level), closing_sameLine]
      next open_ =>
        show _ + _ = ((byte :: rest).take (_ + 1)).count (b '\n')
        rw [List.take_succ_cons, count_cons_newline, ← ih]

theorem equals_run (rest : List UInt8) :
    let level := (rest.takeWhile (· == b '=')).length
    rest = List.replicate level (b '=') ++ rest.drop level := by
  induction rest with
  | nil => rfl
  | cons byte rest ih =>
      rw [List.takeWhile_cons]
      split
      next same =>
        rw [beq_iff_eq] at same
        dsimp only at ih ⊢
        rw [List.length_cons, List.replicate_succ, List.cons_append, List.drop_succ_cons, ← ih, same]
      next => rfl

theorem longBracket_opens {rest : List UInt8} {length newlines : Nat}
    (found : longBracket rest = some (length, newlines)) :
    ∃ level after, rest = opening level ++ after ∧ length = level + 2 + (closeLength level after).1 ∧
      newlines = (closeLength level after).2 := by
  rw [longBracket] at found
  split at found
  next opens =>
    cases rest with
    | nil => simp at opens
    | cons first rest =>
        obtain rfl : first = b '[' := by simpa using opens
        simp only [List.drop_succ_cons, List.drop_zero] at found
        have run := equals_run rest
        generalize (rest.takeWhile (· == b '=')).length = level at found run
        split at found
        next again =>
          obtain ⟨rfl, rfl⟩ := Prod.mk.inj (Option.some.inj found)
          rw [Nat.add_comm, List.getElem?_cons_succ] at again
          have inside := (List.getElem?_eq_some_iff.mp again).1
          have second : rest.drop level = b '[' :: rest.drop (level + 1) := by
            rw [List.getElem?_eq_getElem inside, Option.some.injEq] at again
            rw [List.drop_eq_getElem_cons inside, again]
          refine ⟨level, rest.drop (level + 1), ?_, ?_, ?_⟩
          · rw [opening, List.append_assoc, List.cons_append, List.singleton_append, ← second]
            exact congrArg _ run
          · rw [Nat.add_comm 2 level, List.drop_succ_cons]
          · rw [Nat.add_comm 2 level, List.drop_succ_cons]
        · cases found
  · cases found

theorem longBracket_newlines {rest : List UInt8} {length newlines : Nat}
    (found : longBracket rest = some (length, newlines)) :
    2 ≤ length ∧ newlines = (rest.take length).count (b '\n') := by
  obtain ⟨level, after, rfl, rfl, rfl⟩ := longBracket_opens found
  refine ⟨by omega, ?_⟩
  rw [← opening_length, List.take_length_add_append, List.count_append, opening_sameLine,
    Nat.zero_add, closeLength_newlines]

theorem quotedLength_newlines (quote : UInt8) : ∀ rest : List UInt8,
    (quotedLength quote rest).2 = (rest.take (quotedLength quote rest).1).count (b '\n') ∧
      ∀ byte, rest[(quotedLength quote rest).1]? = some byte → byte = quote
  | [] => ⟨rfl, by simp⟩
  | byte :: rest => by
      rw [quotedLength.eq_def]
      dsimp only
      split
      next closes => exact ⟨rfl, by simpa using closes⟩
      next open_ =>
        split
        next escape =>
          cases rest with
          | nil =>
              subst escape
              exact ⟨rfl, by simp⟩
          | cons escaped more =>
              have ih := quotedLength_newlines quote more
              have plain : byte ≠ b '\n' := by
                rw [escape]
                decide
              refine ⟨?_, fun next there => ih.2 next (by simpa using there)⟩
              show _ + _ = ((byte :: escaped :: more).take (_ + 1 + 1)).count (b '\n')
              rw [List.take_succ_cons, List.take_succ_cons, count_cons_newline, count_cons_newline,
                if_neg plain, ← ih.1]
              rfl
        next =>
          have ih := quotedLength_newlines quote rest
          refine ⟨?_, fun next there => ih.2 next (by simpa using there)⟩
          show _ + _ = ((byte :: rest).take (_ + 1)).count (b '\n')
          rw [List.take_succ_cons, count_cons_newline, ← ih.1]

structure Round (bytes : List UInt8) (state next : ScanState) : Prop where
  onward : state.i < next.i
  counted : next.line =
    state.line + ((bytes.drop state.i).take (next.i - state.i)).count (b '\n')
  reported : next.names = state.names ∨
    ∃ text, next.names = state.names ++ [⟨text, state.i, state.line⟩]

theorem count_takeWhile {bytes : List UInt8} {part : UInt8 → Bool} (other : part (b '\n') = false) :
    (bytes.take (bytes.takeWhile part).length).count (b '\n') = 0 := by
  rw [List.count_eq_zero]
  intro member
  have whole := List.prefix_iff_eq_take.mp (List.takeWhile_prefix (l := bytes) part)
  rw [← whole] at member
  have kept := List.all_takeWhile (l := bytes) (p := part)
  rw [List.all_eq_true] at kept
  rw [kept _ member] at other
  cases other

theorem takeWhile_pos {part : UInt8 → Bool} {byte : UInt8} {rest : List UInt8}
    (first : part byte = true) : 0 < ((byte :: rest).takeWhile part).length := by
  rw [List.takeWhile_cons_of_pos first]
  exact Nat.succ_pos _

theorem scanName_round {bytes : List UInt8} {state next : ScanState} {byte : UInt8}
    {after : List UInt8} (here : bytes.drop state.i = byte :: after) (part : isNamePart byte = true)
    (stepped : scanName bytes state = .ok next) : Round bytes state next := by
  have onward := @takeWhile_pos isNamePart byte after part
  have sameLine := @count_takeWhile (byte :: after) isNamePart (by decide)
  rw [← here] at onward sameLine
  rw [scanName] at stepped
  have amount : state.i + ((bytes.drop state.i).takeWhile isNamePart).length - state.i =
      ((bytes.drop state.i).takeWhile isNamePart).length := by omega
  split at stepped
  · cases sliced : Regex.slice bytes state.i
        (state.i + ((bytes.drop state.i).takeWhile isNamePart).length) with
    | error panic =>
        rw [sliced] at stepped
        cases stepped
    | ok text =>
        rw [sliced] at stepped
        rw [← Except.ok.inj stepped]
        refine ⟨by dsimp only; omega, ?_, Or.inr ⟨text, rfl⟩⟩
        dsimp only
        rw [amount, sameLine, Nat.add_zero]
  · rw [← Except.ok.inj stepped]
    refine ⟨by dsimp only; omega, ?_, Or.inl rfl⟩
    dsimp only
    rw [amount, sameLine, Nat.add_zero]

theorem quoted_newlines {quote : UInt8} (notNewline : quote ≠ b '\n') (after : List UInt8) :
    ((quote :: after).take (1 + (quotedLength quote after).1 + 1)).count (b '\n') =
      (quotedLength quote after).2 := by
  have counted := quotedLength_newlines quote after
  have size : 1 + (quotedLength quote after).1 + 1 = (quotedLength quote after).1 + 1 + 1 := by
    omega
  rw [counted.1, size, List.take_succ_cons, count_cons_newline, if_neg notNewline, List.take_add_one,
    List.count_append]
  cases ends : after[(quotedLength quote after).1]? with
  | none => rfl
  | some closer =>
      rw [counted.2 closer ends]
      simp [notNewline]

theorem scanStep_round {bytes : List UInt8} {state next : ScanState}
    (inside : state.i < bytes.length) (stepped : scanStep bytes state = .ok next) :
    Round bytes state next := by
  rw [scanStep] at stepped
  cases here : bytes.drop state.i with
  | nil => exact absurd (List.drop_eq_nil_iff.mp here) (by omega)
  | cons byte after =>
      rw [here] at stepped
      dsimp only at stepped
      -- A round that passes some bytes, with the newlines among them, and reports nothing.
      have passed (length line : Nat) (previous : Option UInt8) (positive : 0 < length)
          (newlines : line = state.line + ((byte :: after).take length).count (b '\n'))
          (same : next = { names := state.names, i := state.i + length, line, previous }) :
          Round bytes state next := by
        subst same
        refine ⟨by dsimp only; omega, ?_, Or.inl rfl⟩
        dsimp only
        rw [newlines, here, Nat.add_sub_cancel_left]
      split at stepped
      next newline =>
        apply passed 1 _ state.previous (by omega) _ (Except.ok.inj stepped).symm
        simp [newline]
      next notNewline =>
        split at stepped
        · apply passed 1 _ state.previous (by omega) _ (Except.ok.inj stepped).symm
          simp [notNewline]
        split at stepped
        next dashes =>
          obtain ⟨rfl, second⟩ := dashes
          cases after with
          | nil => simp at second
          | cons dash more =>
              obtain rfl : dash = b '-' := by simpa using second
              rw [List.drop_succ_cons, List.drop_zero] at stepped
              rcases found : longBracket more with _ | ⟨length, newlines⟩
              · rw [found] at stepped
                refine passed _ _ state.previous ?_ ?_ (Except.ok.inj stepped).symm
                · exact takeWhile_pos (by decide)
                · rw [count_takeWhile (by decide), Nat.add_zero]
              · rw [found] at stepped
                have counted := longBracket_newlines found
                refine passed (2 + length) (state.line + newlines) state.previous (by omega) ?_
                  ((Except.ok.inj stepped).symm.trans (by simp only [Nat.add_assoc]))
                rw [counted.2, Nat.add_comm 2 length, List.take_succ_cons, List.take_succ_cons,
                  count_cons_newline, count_cons_newline]
                rfl
        next =>
          split at stepped
          next quoted =>
            refine passed (1 + (quotedLength byte after).1 + 1)
              (state.line + (quotedLength byte after).2) (some byte) (by omega) ?_
              ((Except.ok.inj stepped).symm.trans (by simp only [Nat.add_assoc]))
            rw [quoted_newlines notNewline]
          · rcases found : (if byte = b '[' then longBracket (byte :: after) else none) with
              _ | ⟨length, newlines⟩
            · rw [found] at stepped
              dsimp only at stepped
              split at stepped
              next digit =>
                refine passed _ _ (some (b '0')) ?_ ?_ (Except.ok.inj stepped).symm
                · exact takeWhile_pos (by simp [isNumberPart, isAsciiAlphanumeric, digit])
                · rw [count_takeWhile (by decide), Nat.add_zero]
              · split at stepped
                next starts =>
                  apply scanName_round here _ stepped
                  rcases starts with letter | underscore
                  · simp [isNamePart, isAsciiAlphanumeric, letter]
                  · simp [isNamePart, underscore]
                · apply passed 1 _ (some byte) (by omega) _ (Except.ok.inj stepped).symm
                  simp [notNewline]
            · rw [found] at stepped
              split at found
              · have counted := longBracket_newlines found
                refine passed length _ (some (b ']')) (by omega) ?_ (Except.ok.inj stepped).symm
                rw [counted.2]
              · cases found

end FusionPipeline.Lua
