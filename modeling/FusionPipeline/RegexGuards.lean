import FusionPipeline.RegexClasses
import FusionPipeline.RegexSlices

/-! The depth guard and the rewriter against what a pattern reads as. -/

namespace FusionPipeline.Regex

open Loop (lt_of_drop drop_append)

def noSpecial : List UInt8 → Option (List UInt8 × Nat) :=
  fun _ => none

theorem drive_forward (state : ClassState) (rest : List UInt8)
    (special : List UInt8 → Option (List UInt8 × Nat))
    (forward : ∀ rest replacement length, special rest = some (replacement, length) →
      0 < length) : 0 < (drive special state rest).2 := by
  rw [drive]
  split
  · split <;> exact Nat.succ_pos _
  · split
    next replacement length taken => exact forward _ _ _ taken
    · split
      · exact Nat.succ_pos _
      · rcases stepped : state.step rest 0 with ⟨next, _ | consumed⟩
        · exact Nat.succ_pos _
        · rcases ClassState.step_consumed stepped with rfl | ⟨rfl, _⟩ <;> exact Nat.succ_pos _

theorem guardStep_drive {bytes : List UInt8} {limit : UInt32} {state next : GuardState}
    (stepped : guardStep bytes limit state = .ok next) :
    (next.classState, next.i) =
      ((drive noSpecial state.classState (bytes.drop state.i)).1,
        state.i + (drive noSpecial state.classState (bytes.drop state.i)).2) := by
  have here : (bytes.drop state.i)[0]? = bytes[state.i]? := by simp
  rw [guardStep] at stepped
  simp only [drive, here, noSpecial, ClassState.step_drop]
  split at stepped
  next backslash =>
    rw [← Except.ok.inj stepped]
    simp [backslash]
  next notBackslash =>
    rw [if_neg notBackslash, if_neg notBackslash]
    rcases fed : state.classState.step bytes state.i with ⟨after, _ | consumed⟩
    · rw [fed] at stepped
      have outside : state.classState.inClass = false := by
        rw [← ClassState.step_drop] at fed
        exact (ClassState.step_none fed).2.1
      rw [outside]
      dsimp only at stepped
      split at stepped
      · split at stepped
        · cases stepped
        · rw [← Except.ok.inj stepped]
          rfl
      · split at stepped
        · rw [← Except.ok.inj stepped]
          rfl
        · rw [← Except.ok.inj stepped]
          rfl
    · rw [fed] at stepped
      rw [← Except.ok.inj stepped]
      split
      next inside =>
        rw [ClassState.step, if_pos inside] at fed
        rw [← Option.some.inj (Prod.mk.inj fed).2]
      next => rfl

theorem guard_lowers (bytes : List UInt8) (limit : UInt32) :
    Loop.Lowers (fun state : GuardState => state.i < bytes.length) (guardStep bytes limit)
      fun state => bytes.length - state.i := by
  intro state next going stepped
  have moved := (Prod.mk.inj (guardStep_drive stepped)).2
  have ahead := drive_forward state.classState (bytes.drop state.i) noSpecial
    (by intro rest replacement length taken; cases taken)
  have inside : state.i < bytes.length := by simpa using going
  show bytes.length - next.i < bytes.length - state.i
  omega

theorem guard_stops (bytes : List UInt8) (state : GuardState)
    (done : bytes.length - state.i = 0) : decide (state.i < bytes.length) = false := by
  rw [decide_eq_false_iff_not]
  omega

def unlimited : UInt32 :=
  0xFFFFFFFF

theorem guardStep_unlimited (bytes : List UInt8) (state : GuardState) :
    ∃ next, guardStep bytes unlimited state = .ok next := by
  have never (depth : UInt32) : ¬ unlimited < depth := by
    intro past
    have bound := depth.toNat_lt
    have above := UInt32.lt_iff_toNat_lt.mp past
    rw [show unlimited.toNat = 4294967295 from rfl] at above
    omega
  rw [guardStep]
  split
  · exact ⟨_, rfl⟩
  · rcases state.classState.step bytes state.i with ⟨after, _ | consumed⟩
    · dsimp only
      split
      · rw [if_neg (never _)]
        exact ⟨_, rfl⟩
      · split <;> exact ⟨_, rfl⟩
    · exact ⟨_, rfl⟩

def guardMarks (bytes : List UInt8) : List Bool :=
  marksOf bytes.length ((Loop.trace (fun state => state.i < bytes.length)
    (guardStep bytes unlimited) bytes.length ⟨0, .default, 0⟩).map fun state =>
      (state.classState, state.i))

theorem guardMarks_eq (bytes : List UInt8) :
    guardMarks bytes = drivenMarks noSpecial .default bytes := by
  have traced := @marksOf_trace noSpecial GuardState CompileError
    (fun state => state.i < bytes.length) (guardStep bytes unlimited)
    (fun state => bytes.length - state.i) GuardState.classState GuardState.i bytes
    (guard_lowers bytes unlimited) (guard_stops bytes) (fun state => by simp)
    (fun state _ => by
      obtain ⟨next, stepped⟩ := guardStep_unlimited bytes state
      exact ⟨next, stepped, guardStep_drive stepped⟩)
    (fun state rest => drive_forward state rest noSpecial
      (by intro rest replacement length taken; cases taken))
    bytes.length bytes.length ⟨0, .default, 0⟩ (by simp) (by simp)
  rw [guardMarks, traced, List.drop_zero]

def deepFrom (limit : Nat) : Nat → List (Option Paren) → Option Nat
  | _, [] => none
  | depth, paren :: rest =>
      if paren = some .opens ∧ limit < depth + 1 then some 0
      else (deepFrom limit (nest depth paren) rest).map (· + 1)

theorem deepAt_zero (limit depth : Nat) (paren : Option Paren) (rest : List (Option Paren)) :
    DeepAt limit depth (paren :: rest) 0 ↔ paren = some .opens ∧ limit < depth + 1 := by
  simp only [DeepAt, List.getElem?_cons_zero, Option.some.injEq, List.take_succ_cons,
    List.take_zero, depthAfter, List.foldl_cons, List.foldl_nil]
  constructor
  · rintro ⟨rfl, deep⟩
    exact ⟨rfl, deep⟩
  · rintro ⟨rfl, deep⟩
    exact ⟨rfl, deep⟩

theorem deepAt_succ (limit depth : Nat) (paren : Option Paren) (rest : List (Option Paren))
    (offset : Nat) :
    DeepAt limit depth (paren :: rest) (offset + 1) ↔ DeepAt limit (nest depth paren) rest offset := by
  simp only [DeepAt, List.getElem?_cons_succ, List.take_succ_cons, depthAfter, List.foldl_cons]

theorem deepFrom_iff (limit depth : Nat) (parens : List (Option Paren)) (offset : Nat) :
    deepFrom limit depth parens = some offset ↔ FirstDeep limit depth parens offset := by
  induction parens generalizing depth offset with
  | nil => simp [deepFrom, FirstDeep, DeepAt]
  | cons paren rest ih =>
      rw [deepFrom]
      split
      next deep =>
        rw [Option.some.injEq]
        constructor
        · rintro rfl
          exact ⟨(deepAt_zero ..).mpr deep, fun earlier before => absurd before (Nat.not_lt_zero _)⟩
        · rintro ⟨_, first⟩
          by_contra later
          exact first 0 (by omega) ((deepAt_zero ..).mpr deep)
      next shallow =>
        cases offset with
        | zero =>
            refine ⟨fun found => ?_, fun first => absurd ((deepAt_zero ..).mp first.1) shallow⟩
            obtain ⟨inner, _, moved⟩ := Option.map_eq_some_iff.mp found
            omega
        | succ inner =>
            rw [Option.map_eq_some_iff]
            simp only [Nat.add_right_cancel_iff, exists_eq_right, ih]
            constructor
            · rintro ⟨here, first⟩
              refine ⟨(deepAt_succ ..).mpr here, ?_⟩
              rintro (_ | earlier) before
              · exact fun deep => shallow ((deepAt_zero ..).mp deep)
              · exact fun deep => first earlier (by omega) ((deepAt_succ ..).mp deep)
            · rintro ⟨here, first⟩
              refine ⟨(deepAt_succ ..).mp here, ?_⟩
              intro earlier before deep
              exact first (earlier + 1) (by omega) ((deepAt_succ ..).mpr deep)

theorem deepFrom_none (limit depth count : Nat) (rest : List (Option Paren)) :
    deepFrom limit depth (List.replicate count none ++ rest) =
      (deepFrom limit depth rest).map (· + count) := by
  induction count with
  | zero => simp
  | succ count ih =>
      rw [List.replicate_succ, List.cons_append, deepFrom, if_neg (by simp), nest, ih,
        Option.map_map]
      rfl

def guardRun (bytes : List UInt8) (limit : UInt32) (state : GuardState) :
    Except CompileError GuardState :=
  Loop.run (fun state => state.i < bytes.length) (guardStep bytes limit) bytes.length state

section GuardRun

variable {bytes : List UInt8} {limit : UInt32}

theorem guardRun_round {state : GuardState} (inside : state.i < bytes.length) :
    guardRun bytes limit state = (guardStep bytes limit state).bind (guardRun bytes limit) := by
  have unfolded := Loop.run_unfold (guard_lowers bytes limit) (guard_stops bytes)
    (show bytes.length - state.i ≤ bytes.length by omega)
  rw [if_pos (by simpa using inside)] at unfolded
  exact unfolded

theorem guardRun_done {state : GuardState} (past : bytes.length ≤ state.i) :
    guardRun bytes limit state = .ok state := by
  apply Loop.run_done
  rw [decide_eq_false_iff_not]
  omega

theorem guardRun_walks {state next : ClassState} {text : List UInt8} {marks : List Bool}
    (walk : Walks state text marks next) {depth : UInt32} {i : Nat} {more : List UInt8}
    (here : bytes.drop i = text ++ more) :
    guardRun bytes limit ⟨depth, state, i⟩ = guardRun bytes limit ⟨depth, next, i + text.length⟩ := by
  induction walk generalizing i with
  | done => rfl
  | @escape state next text marks value inside rest ih =>
      obtain ⟨isInside, atI, _⟩ := lt_of_drop here
      rw [guardRun_round isInside, guardStep, if_pos atI]
      show guardRun bytes limit ⟨depth, state, i + 2⟩ = _
      have later : bytes.drop (i + 2) = text ++ more :=
        @drop_append _ bytes i [b '\\', value] (text ++ more) here
      rw [ih later, List.length_cons, List.length_cons]
      congr 2
      omega
  | @member state next value text marks inside notBackslash rest ih =>
      obtain ⟨isInside, atI, atNext⟩ := lt_of_drop here
      have fed : state.step bytes i = (state.after value, some 1) := by
        rw [← ClassState.step_drop, here, List.cons_append]
        exact ClassState.step_member inside value _
      have plain : ¬ bytes[i]? = some (b '\\') := by
        rw [atI, Option.some.injEq]
        exact notBackslash
      rw [guardRun_round isInside, guardStep, if_neg plain, fed]
      show guardRun bytes limit ⟨depth, state.after value, i + 1⟩ = _
      rw [ih atNext, List.length_cons]
      congr 2
      omega

theorem guardRun_unclosed {state : ClassState} {depth : UInt32} {i : Nat}
    (unclosed : Unclosed state (bytes.drop i)) :
    (guardRun bytes limit ⟨depth, state, i⟩).map (fun _ => ()) = .ok () := by
  obtain ⟨next, front, last, whole, short, open_, walk⟩ := unclosed
  rw [guardRun_walks walk whole]
  have atEnd := drop_append whole
  rcases short with rfl | rfl
  · rw [guardRun_done (by simpa using atEnd)]
    rfl
  · obtain ⟨isInside, atI, rest⟩ := @lt_of_drop _ bytes (i + front.length) (b '\\') [] atEnd
    rw [guardRun_round isInside, guardStep, if_pos atI]
    show (guardRun bytes limit ⟨depth, next, i + front.length + 2⟩).map _ = _
    have past := List.drop_eq_nil_iff.mp rest
    rw [guardRun_done (by dsimp only; omega)]
    rfl

theorem parens_charClass (caret members : List UInt8) (closed : Bool) :
    (Piece.charClass caret members closed).parens =
      List.replicate (caret.length + members.length + 1 + if closed then 1 else 0) none := by
  cases closed <;> simp [Piece.parens, Piece.marks]

def Judged (bytes : List UInt8) (limit : UInt32) (state : GuardState) (i depth : Nat)
    (parens : List (Option Paren)) : Prop :=
  (guardRun bytes limit state).map (fun _ => ()) =
    match deepFrom limit.toNat depth parens with
    | some offset => .error (.parensTooDeep limit (i + offset))
    | none => .ok ()

section Judged

variable {state : GuardState} {i depth : Nat} {paren : Option Paren} {parens : List (Option Paren)}
  {value : UInt8} {after : List UInt8}

theorem Judged.silent {count fewer : Nat}
    (judged : Judged bytes limit state (i + count) depth parens)
    (size : fewer = count ∨ parens = []) :
    Judged bytes limit state i depth (List.replicate fewer none ++ parens) := by
  rw [Judged] at judged ⊢
  rw [judged, deepFrom_none]
  rcases size with rfl | rfl
  · cases deepFrom limit.toNat depth parens with
    | none => rfl
    | some offset =>
        simp only [Option.map_some]
        congr 2
        omega
  · rfl

theorem Judged.nested (judged : Judged bytes limit state (i + 1) (nest depth paren) parens)
    (allowed : ¬ (paren = some .opens ∧ limit.toNat < depth + 1)) :
    Judged bytes limit state i depth (paren :: parens) := by
  rw [Judged] at judged ⊢
  rw [judged, deepFrom, if_neg allowed]
  cases deepFrom limit.toNat (nest depth paren) parens with
  | none => rfl
  | some offset =>
      simp only [Option.map_some]
      congr 2
      omega

def JudgedAt (bytes : List UInt8) (limit : UInt32) (i : Nat) : Prop :=
  ∀ depth : UInt32, depth.toNat ≤ limit.toNat →
    (∀ piece ∈ pieces noSpecial (bytes.drop i), piece.escapesOnly = false) →
      Judged bytes limit ⟨depth, .default, i⟩ i depth.toNat
        ((pieces noSpecial (bytes.drop i)).flatMap Piece.parens)

theorem judgedAt_escape (rest : bytes.drop i = b '\\' :: after)
    (later : JudgedAt bytes limit (i + 2)) : JudgedAt bytes limit i := by
  intro depth shallow clear
  obtain ⟨inside, atI, _⟩ := lt_of_drop rest
  have next : bytes.drop (i + 2) = after.drop 1 := by
    rw [← List.drop_drop, rest]
    rfl
  rw [rest, pieces] at clear ⊢
  simp only [noSpecial, ↓reduceIte] at clear ⊢
  rw [← next] at clear ⊢
  have judged := later depth shallow fun piece member => clear piece (List.mem_cons_of_mem _ member)
  rw [Judged, guardRun_round inside, guardStep, if_pos atI]
  show Judged bytes limit ⟨depth, .default, i + 2⟩ i _ _
  have silent : (Piece.escape ((b '\\' :: after).take 2)).parens =
      List.replicate ((b '\\' :: after).take 2).length none := by
    simp [Piece.parens, Piece.marks]
  rw [List.flatMap_cons, silent]
  refine judged.silent ?_
  cases after with
  | nil =>
      rw [next]
      exact Or.inr (by simp [pieces])
  | cons next more => exact Or.inl rfl

theorem judgedAt_class (rest : bytes.drop i = b '[' :: after)
    (later : ∀ cursor, i < cursor → JudgedAt bytes limit cursor) : JudgedAt bytes limit i := by
  intro depth shallow clear
  obtain ⟨inside, atI, _⟩ := lt_of_drop rest
  have fed : ClassState.default.step bytes i = (⟨true, true⟩, some (1 + caretLength after)) := by
    rw [← ClassState.step_drop, rest]
    simp [ClassState.step, ClassState.default, caretLength]
  have body : bytes.drop (i + (1 + caretLength after)) = after.drop (caretLength after) := by
    rw [← List.drop_drop, rest, Nat.add_comm, List.drop_succ_cons]
  have notBackslash : ¬ bytes[i]? = some (b '\\') := by
    rw [atI]
    decide
  have other : b '[' ≠ b '\\' := by decide
  rw [rest, pieces] at clear ⊢
  simp only [noSpecial, if_neg other, ↓reduceIte] at clear ⊢
  rw [Judged, guardRun_round inside, guardStep, if_neg notBackslash, fed]
  show Judged bytes limit ⟨depth, ⟨true, true⟩, i + (1 + caretLength after)⟩ i _ _
  have short := caretLength_le after
  cases found : classEnd (after.drop (caretLength after)) with
  | none =>
      have unclosed := unclosed_of_classEnd found
      rw [← body] at unclosed
      have silent := deepFrom_none limit.toNat depth.toNat ((after.take
        (caretLength after)).length + (after.drop (caretLength after)).length + 1 + 0) []
      rw [List.append_nil] at silent
      dsimp only
      rw [Judged, guardRun_unclosed unclosed, List.flatMap_singleton, parens_charClass,
        if_neg (by decide), silent]
      rfl
  | some length =>
      rw [found] at clear
      dsimp only at clear ⊢
      have walk := walks_class found (clear _ List.mem_cons_self)
      have within := classEnd_lt found
      rw [List.length_drop] at within
      have whole : bytes.drop (i + (1 + caretLength after)) =
          (after.drop (caretLength after)).take (length + 1) ++
            (after.drop (caretLength after)).drop (length + 1) := by
        rw [body, List.take_append_drop]
      have size : ((after.drop (caretLength after)).take (length + 1)).length = length + 1 := by
        rw [List.length_take, List.length_drop]
        omega
      have past := drop_append whole
      have cursor : i + (1 + caretLength after) + (length + 1) = i + (caretLength after + length + 2) := by
        omega
      rw [size, cursor] at past
      rw [← past] at clear ⊢
      have judged := later (i + (caretLength after + length + 2)) (by omega) depth shallow
        fun piece member => clear piece (List.mem_cons_of_mem _ member)
      have silent : (Piece.charClass (after.take (caretLength after))
          ((after.drop (caretLength after)).take length) true).parens =
            List.replicate (caretLength after + length + 2) none := by
        rw [parens_charClass, List.length_take, List.length_take, List.length_drop, if_pos rfl]
        congr 1
        omega
      rw [Judged, guardRun_walks walk whole, size, cursor, List.flatMap_cons, silent]
      exact judged.silent (Or.inl rfl)

theorem toNat_closed (depth : UInt32) :
    (if depth = 0 then 0 else depth - 1).toNat = depth.toNat - 1 := by
  split
  next zero =>
    rw [zero]
    rfl
  next positive =>
    have one : (1 : UInt32) ≤ depth := by
      have apart : depth.toNat ≠ (0 : UInt32).toNat :=
        fun same => positive (UInt32.toNat_inj.mp same)
      rw [show (0 : UInt32).toNat = 0 from rfl] at apart
      rw [UInt32.le_iff_toNat_le, show (1 : UInt32).toNat = 1 from rfl]
      omega
    rw [UInt32.toNat_sub_of_le _ _ one]
    rfl

theorem judgedAt_byte (bounded : limit.toNat < 0xFFFFFFFF) (rest : bytes.drop i = value :: after)
    (notBackslash : value ≠ b '\\') (notOpener : value ≠ b '[')
    (later : JudgedAt bytes limit (i + 1)) : JudgedAt bytes limit i := by
  intro depth shallow clear
  obtain ⟨inside, atI, atNext⟩ := lt_of_drop rest
  have fed : ClassState.default.step bytes i = (.default, none) := by
    rw [← ClassState.step_drop, rest]
    simp [ClassState.step, ClassState.default, notOpener]
  rw [rest, pieces] at clear ⊢
  simp only [noSpecial, if_neg notBackslash, if_neg notOpener] at clear ⊢
  rw [← atNext] at clear ⊢
  have judged (next : UInt32) (low : next.toNat ≤ limit.toNat) :=
    later next low fun piece member => clear piece (List.mem_cons_of_mem _ member)
  rw [Judged, guardRun_round inside, guardStep, atI, if_neg (by simpa using notBackslash), fed,
    List.flatMap_cons]
  dsimp only
  by_cases opens : value = b '('
  · have spelled : (Piece.byte value).parens = [some .opens] := by
      simp [Piece.parens, opens]
    have next : (depth + 1).toNat = depth.toNat + 1 := by
      rw [UInt32.toNat_add, show (1 : UInt32).toNat = 1 from rfl]
      omega
    rw [if_pos (by rw [opens]), spelled, List.singleton_append]
    by_cases deep : limit.toNat < depth.toNat + 1
    · have tooDeep : limit < depth + 1 := UInt32.lt_iff_toNat_lt.mpr (by omega)
      rw [if_pos tooDeep, deepFrom, if_pos ⟨rfl, deep⟩]
      rfl
    · have under : ¬ limit < depth + 1 := by
        rw [UInt32.lt_iff_toNat_lt]
        omega
      have below := judged (depth + 1) (by omega)
      rw [next] at below
      rw [if_neg under]
      exact below.nested fun both => deep both.2
  · rw [if_neg (by simpa using opens)]
    by_cases closes : value = b ')'
    · have spelled : (Piece.byte value).parens = [some .closes] := by
        have apart : b ')' ≠ b '(' := by decide
        simp [Piece.parens, closes, apart]
      have above := judged (if depth = 0 then 0 else depth - 1) (by rw [toNat_closed]; omega)
      rw [toNat_closed] at above
      rw [if_pos (by rw [closes]), spelled, List.singleton_append]
      exact above.nested (by simp)
    · have spelled : (Piece.byte value).parens = [none] := by
        simp [Piece.parens, opens, closes]
      rw [if_neg (by simpa using closes), spelled, List.singleton_append]
      exact (judged depth shallow).nested (by simp)

/-- Over a pattern whose every class closes where its text says, the depth guard counts the
group parentheses. -/
theorem guardRun_pieces (bounded : limit.toNat < 0xFFFFFFFF) (n : Nat) {i : Nat}
    (left : bytes.length - i ≤ n) : JudgedAt bytes limit i := by
  induction n using Nat.strongRecOn generalizing i with
  | _ n ih =>
      cases rest : bytes.drop i with
      | nil =>
          intro depth shallow clear
          rw [Judged, guardRun_done (by simpa using rest), rest, pieces]
          rfl
      | cons value after =>
          obtain ⟨inside, _, _⟩ := lt_of_drop rest
          have later (cursor : Nat) (past : i < cursor) : JudgedAt bytes limit cursor :=
            ih (bytes.length - cursor) (by omega) (Nat.le_refl _)
          by_cases isBackslash : value = b '\\'
          · exact judgedAt_escape (isBackslash ▸ rest) (later _ (by omega))
          · by_cases isOpener : value = b '['
            · exact judgedAt_class (isOpener ▸ rest) later
            · exact judgedAt_byte bounded rest isBackslash isOpener (later _ (by omega))

end Judged

/-- The largest limit is never passed: the count wraps before. -/
theorem guardRun_unlimited (n : Nat) {state : GuardState} (left : bytes.length - state.i ≤ n) :
    ∃ final, guardRun bytes unlimited state = .ok final := by
  induction n generalizing state with
  | zero => exact ⟨_, guardRun_done (by omega)⟩
  | succ n ih =>
      by_cases inside : state.i < bytes.length
      · obtain ⟨next, stepped⟩ := guardStep_unlimited bytes state
        have lower := guard_lowers bytes unlimited state next (by simpa using inside) stepped
        rw [guardRun_round inside, stepped]
        exact ih (by dsimp only at lower; omega)
      · exact ⟨_, guardRun_done (by omega)⟩

end GuardRun

theorem checkGuards_iff {pattern : String} {limits : Limits}
    (fits : (Utf8.bytes pattern).length ≤ limits.maxPatternLength)
    (bounded : limits.parensNestLimit ≠ unlimited)
    (clear : ∀ piece ∈ pieces noSpecial (Utf8.bytes pattern), piece.escapesOnly = false)
    (offset : Nat) :
    checkGuards pattern limits = .error (.parensTooDeep limits.parensNestLimit offset) ↔
      FirstDeep limits.parensNestLimit.toNat 0
        ((pieces noSpecial (Utf8.bytes pattern)).flatMap Piece.parens) offset := by
  have below : limits.parensNestLimit.toNat < 0xFFFFFFFF := by
    have small := limits.parensNestLimit.toNat_lt
    have apart : limits.parensNestLimit.toNat ≠ unlimited.toNat :=
      fun same => bounded (UInt32.toNat_inj.mp same)
    rw [show unlimited.toNat = 4294967295 from rfl] at apart
    omega
  have counted := @guardRun_pieces (Utf8.bytes pattern) limits.parensNestLimit below
    (Utf8.bytes pattern).length 0 (by omega) 0 (Nat.zero_le _) (by rwa [List.drop_zero])
  rw [Judged, List.drop_zero] at counted
  rw [← deepFrom_iff, checkGuards]
  rw [if_neg (by omega)]
  show (guardRun (Utf8.bytes pattern) limits.parensNestLimit ⟨0, .default, 0⟩).map (fun _ => ()) = _ ↔ _
  rw [counted, show (0 : UInt32).toNat = 0 from rfl]
  cases deepFrom limits.parensNestLimit.toNat 0
      ((pieces noSpecial (Utf8.bytes pattern)).flatMap Piece.parens) with
  | none => simp
  | some found => simp

end FusionPipeline.Regex
