import FusionPipeline.LuaFreeNames

/-! Which scripts are scanned right, and what a node does with the names of its script. -/

namespace FusionPipeline.Lua

open Regex (b Panic)
open Loop (lt_of_drop drop_append)

/-- The scan's names against the lexemes: in order, every free use among them with its line, and
nothing of a string or a comment. -/
structure Reports (lexemes : List Lexeme) (names : List FreeName) : Prop where
  order : names.Pairwise fun earlier later => earlier.start < later.start
  finds : ∀ before lexeme after, lexemes = before ++ lexeme :: after →
    FreeUse before lexeme after → nameAt before lexeme ∈ names
  outside : ∀ name ∈ names, ∀ before lexeme after, lexemes = before ++ lexeme :: after →
    lexeme.kind = .string ∨ lexeme.kind = .comment →
      name.start + name.text.length ≤ (textOf before).length ∨
        (textOf before).length + lexeme.text.length ≤ name.start

def Uses (lexemes : List Lexeme) (word : String) : Prop :=
  ∃ before lexeme after, lexemes = before ++ lexeme :: after ∧ FreeUse before lexeme after ∧
    lexeme.text = Utf8.bytes word

/-- A node with this script knows whether it uses `state`, and is refused for a forbidden name. -/
def LoadsChecked (source : String) (lexemes : List Lexeme) : Prop :=
  ∀ parseParams readToString newVm node params script,
    readScript parseParams readToString node = .ok (params, script) → script.source = source →
      (Uses lexemes "state" → ∀ stage,
        fromNode parseParams readToString newVm node = .ok (.ok stage) → stage.usesState = true) ∧
      ((∃ word ∈ forbidden, Uses lexemes word) → ∃ error,
        fromNode parseParams readToString newVm node = .ok (.error error))

def ScansNames (source : String) (lexemes : List Lexeme) : Prop :=
  (∃ names, freeNames source = .ok names ∧ Reports lexemes names) ∧ LoadsChecked source lexemes

/-- No free use stands right behind `..`, `...` or `::`, and none comes after a line break that
is a carriage return alone. -/
def Visible (lexemes : List Lexeme) : Prop :=
  ∀ before lexeme after, lexemes = before ++ lexeme :: after → FreeUse before lexeme after →
    ¬ Hidden before ∧ bareReturns (textOf before) = 0

theorem textOf_apart {before rest front more : List Lexeme} {first second : Lexeme}
    (whole : before ++ first :: rest = front ++ second :: more)
    (apart : first.kind ≠ second.kind) :
    (textOf before).length + first.text.length ≤ (textOf front).length ∨
      (textOf front).length + second.text.length ≤ (textOf before).length := by
  have longer {front gap : List Lexeme} {lexeme other : Lexeme} {rest more : List Lexeme}
      (apart : lexeme.kind ≠ other.kind) (same : lexeme :: rest = gap ++ other :: more) :
      (textOf front).length + lexeme.text.length ≤ (textOf (front ++ gap)).length := by
    cases gap with
    | nil => exact absurd (congrArg Lexeme.kind (List.cons.inj same).1) apart
    | cons start gap =>
        rw [← (List.cons.inj same).1, textOf_append, textOf_cons, List.length_append,
          List.length_append]
        omega
  rcases List.append_eq_append_iff.mp whole with ⟨gap, rfl, same⟩ | ⟨gap, rfl, same⟩
  · exact Or.inl (longer apart same)
  · exact Or.inr (longer apart.symm same)

theorem freeNames_eq {source : String} {lexemes : List Lexeme}
    (lexes : Lexes (Utf8.bytes source) lexemes) (calm : ¬ ReturnEnded lexemes []) :
    freeNames source = .ok (foundIn [] none 0 1 lexemes) := by
  have whole := lexes.text
  rw [List.append_nil] at whole
  have ran := @scan_reads source _ _ _ lexes calm [] 0 1 none (by rw [List.drop_zero])
  rw [freeNames, ran, scan_done (by dsimp only; rw [whole]; omega), List.nil_append]
  rfl

theorem reports_visible {source : String} {lexemes : List Lexeme}
    (lexes : Lexes (Utf8.bytes source) lexemes) (visible : Visible lexemes)
    (calm : ¬ ReturnEnded lexemes []) :
    ∃ names, freeNames source = .ok names ∧ Reports lexemes names := by
  have found := freeNames_eq lexes calm
  refine ⟨_, found, ?_, ?_, ?_⟩
  · have start : Ordered (Utf8.bytes source) ⟨[], 0, 1, none⟩ :=
      ⟨rfl, by simp, by simp, List.Pairwise.nil⟩
    rw [freeNames] at found
    cases ran : scan (Utf8.bytes source) ⟨[], 0, 1, none⟩ with
    | error panic => rw [ran] at found; cases found
    | ok final =>
        rw [ran] at found
        rw [← Except.ok.inj found]
        exact (start.scan ran).order
  · intro before lexeme after whole free
    obtain ⟨notHidden, noReturns⟩ := visible before lexeme after whole free
    subst whole
    obtain ⟨readsBefore, readsAfter⟩ := @Reads.split _ _ before (lexeme :: after) lexes
    have noAccess : leavesAll none before ≠ some (b '.') ∧ leavesAll none before ≠ some (b ':') := by
      have never (access : leavesAll none before = some (b '.') ∨
          leavesAll none before = some (b ':')) : False := by
        rcases leaves_access readsBefore access with point | colon | hidden
        · exact free.notField.1 point
        · exact free.notField.2 colon
        · exact notHidden hidden
      exact ⟨fun point => never (Or.inl point), fun colon => never (Or.inr colon)⟩
    have notFollowed : assigned (textOf after ++ []) = false := by
      rw [Bool.eq_false_iff]
      intro followed
      have readsLater := (@Reads.split _ _ (before ++ [lexeme]) after
        (by rw [List.append_assoc]; exact lexes)).2
      exact free.notAssigned (assigned_next readsLater rfl followed)
    rw [foundIn_append, foundIn, Lexeme.found, if_pos ⟨free.isName, noAccess.1, noAccess.2, notFollowed⟩]
    have same : nameAt before lexeme = ⟨lexeme.text, 0 + (textOf before).length,
        1 + (textOf before).count (b '\n')⟩ := by
      rw [nameAt, breaks_eq, noReturns, Nat.zero_add, Nat.add_zero, Nat.add_comm 1]
    rw [same]
    simp
  · intro name member before lexeme after whole quiet
    obtain ⟨front, found, back, whole', isName, rfl⟩ := mem_foundIn member
    have apart : found.kind ≠ lexeme.kind := by
      rw [isName]
      rcases quiet with isString | isComment
      · rw [isString]
        decide
      · rw [isComment]
        decide
    have far := textOf_apart (whole'.symm.trans whole) apart
    simpa using far

theorem checkNames_refuses {node : NodeConfig} {script : Script} {word : String}
    (known : word ∈ forbidden) : ∀ {names : List FreeName} {name : FreeName} (usesState : Bool),
      name ∈ names → name.text = Utf8.bytes word →
        ∃ error, checkNames node script usesState names = .error error
  | first :: rest, name, usesState, member, same => by
      rw [checkNames]
      cases refused : forbidden.find? fun word => Utf8.bytes word == first.text with
      | some other => exact ⟨_, rfl⟩
      | none =>
          rcases List.mem_cons.mp member with rfl | later
          · have missed := List.find?_eq_none.mp refused word known
            rw [same, beq_self_eq_true] at missed
            exact absurd rfl missed
          · exact checkNames_refuses known _ later same

theorem checkNames_state {node : NodeConfig} {script : Script} : ∀ {names : List FreeName}
    {usesState result : Bool}, checkNames node script usesState names = .ok result →
      (usesState = true ∨ ∃ name ∈ names, name.text = Utf8.bytes "state") → result = true
  | [], usesState, result, checked, uses => by
      rw [checkNames] at checked
      rcases uses with already | ⟨name, none_, _⟩
      · rw [← Except.ok.inj checked, already]
      · simp at none_
  | first :: rest, usesState, result, checked, uses => by
      rw [checkNames] at checked
      split at checked
      · cases checked
      · apply checkNames_state checked
        rcases uses with already | ⟨name, member, same⟩
        · exact Or.inl (by rw [already, Bool.true_or])
        · rcases List.mem_cons.mp member with rfl | later
          · exact Or.inl (by rw [same, beq_self_eq_true, Bool.or_true])
          · exact Or.inr ⟨name, later, same⟩

theorem checkScript_usesState {newVm : Script → Except String Unit} {node : NodeConfig}
    {params : Params} {script : Script} {names : List FreeName} {stage : Stage}
    (checked : checkScript newVm node params script names = .ok stage) :
    ∃ usesState, checkNames node script false names = .ok usesState ∧
      stage.usesState = usesState := by
  rw [checkScript] at checked
  cases result : checkNames node script false names with
  | error error =>
      rw [result] at checked
      cases checked
  | ok usesState =>
      rw [result] at checked
      simp only [bind, Except.bind] at checked
      split at checked
      · cases checked
      · cases ran : newVm script with
        | error message =>
            rw [ran] at checked
            cases checked
        | ok done =>
            rw [ran] at checked
            rw [← Except.ok.inj checked]
            exact ⟨usesState, rfl, rfl⟩

theorem loads_checked {source : String} {lexemes : List Lexeme} {names : List FreeName}
    (scanned : freeNames source = .ok names) (reports : Reports lexemes names) :
    LoadsChecked source lexemes := by
  intro parseParams readToString newVm node params script read same
  have built : fromNode parseParams readToString newVm node =
      .ok (checkScript newVm node params script names) := by
    rw [fromNode, read]
    dsimp only
    rw [same, scanned]
    rfl
  have named {word : String} (uses : Uses lexemes word) :
      ∃ name ∈ names, name.text = Utf8.bytes word := by
    obtain ⟨before, lexeme, after, whole, free, text⟩ := uses
    exact ⟨_, reports.finds before lexeme after whole free, text⟩
  rw [built]
  constructor
  · intro uses stage loaded
    obtain ⟨usesState, result, same⟩ := checkScript_usesState (Except.ok.inj loaded)
    rw [same]
    exact checkNames_state result (Or.inr (named uses))
  · rintro ⟨word, known, uses⟩
    obtain ⟨name, member, text⟩ := named uses
    obtain ⟨error, refused⟩ := @checkNames_refuses node script word known names name false member text
    refine ⟨error, ?_⟩
    rw [checkScript, refused]
    rfl

theorem names_line {source : String} {names : List FreeName}
    (scanned : freeNames source = .ok names) {name : FreeName} (member : name ∈ names) :
    name.line = ((Utf8.bytes source).take name.start).count (b '\n') + 1 := by
  have start : Ordered (Utf8.bytes source) ⟨[], 0, 1, none⟩ :=
    ⟨rfl, by simp, by simp, List.Pairwise.nil⟩
  rw [freeNames] at scanned
  cases ran : scan (Utf8.bytes source) ⟨[], 0, 1, none⟩ with
  | error panic =>
      rw [ran] at scanned
      cases scanned
  | ok final =>
      rw [ran] at scanned
      rw [← Except.ok.inj scanned] at member
      exact (start.scan ran).lines name member

theorem bareReturns_of_ended {source : List UInt8} {before after : List Lexeme} {lexeme : Lexeme}
    (lexes : Lexes source (before ++ lexeme :: after)) (isName : lexeme.kind = .name)
    (ended : ReturnEnded before (textOf (lexeme :: after))) : 0 < bareReturns (textOf before) := by
  obtain ⟨front, comment, gap, rfl, isComment, short, return_, bare⟩ := ended
  have takesComment : Takes comment (textOf (gap ++ lexeme :: after) ++ []) := by
    apply @Reads.takes source [] front
    rw [← List.cons_append, ← List.append_assoc]
    exact lexes
  have takesName : Takes lexeme (textOf after ++ []) := lexes.takes
  have lastPlain : ∃ start last, comment.text = start ++ [last] ∧ isNewline last = false := by
    obtain ⟨kind, text⟩ := comment
    obtain rfl : kind = .comment := isComment
    cases takesComment with
    | longComment long =>
        cases long with
        | intro level body first =>
            exact absurd ⟨level, body ++ closing level, by simp⟩ short
    | @shortComment body _ sameLine ends shortBody =>
        rcases List.eq_nil_or_concat' body with rfl | ⟨start, last, rfl⟩
        · exact ⟨[b '-'], b '-', rfl, by decide⟩
        · exact ⟨b '-' :: b '-' :: start, last, rfl, sameLine last (by simp)⟩
  obtain ⟨start, last, text, sameLine⟩ := lastPlain
  have gapText : ∃ more, textOf gap = b '\r' :: more ∧ more.head? ≠ some (b '\n') := by
    cases gapped : textOf gap with
    | nil =>
        rw [gapped, List.nil_append, textOf_cons] at return_
        obtain ⟨kind, word⟩ := lexeme
        obtain rfl : kind = .name := isName
        cases takesName with
        | @name first _ _ starts parts ends =>
            rw [show first = b '\r' from Option.some.inj return_] at starts
            exact absurd starts (by decide)
    | cons first more =>
        rw [gapped] at return_ bare
        obtain rfl : first = b '\r' := Option.some.inj return_
        refine ⟨more, rfl, ?_⟩
        intro newline
        apply bare
        cases more with
        | nil => cases newline
        | cons second more => exact newline
  obtain ⟨more, gapped, notNewline⟩ := gapText
  have whole : textOf (front ++ comment :: gap) =
      textOf front ++ start ++ last :: (b '\r' :: more) := by
    rw [textOf_append, textOf_cons, text, gapped]
    simp
  rw [whole]
  exact Nat.lt_of_lt_of_le (bareReturns_pos notNewline)
    (bareReturns_append last sameLine (b '\r' :: more) (textOf front ++ start))

theorem hidden_missed {source : String} {before after : List Lexeme} {lexeme : Lexeme}
    {names : List FreeName} (lexes : Lexes (Utf8.bytes source) (before ++ lexeme :: after))
    (isName : lexeme.kind = .name) (noReturns : bareReturns (textOf before) = 0)
    (hidden : Hidden before) (scanned : freeNames source = .ok names) :
    nameAt before lexeme ∉ names := by
  obtain ⟨readsBefore, readsAfter⟩ := @Reads.split _ _ before (lexeme :: after) lexes
  rw [List.append_nil] at readsBefore
  have calm : ¬ ReturnEnded before (textOf (lexeme :: after)) := by
    intro ended
    have some_ := bareReturns_of_ended lexes isName ended
    omega
  have calmName : ¬ lexeme.ReturnEnds (textOf after ++ []) := by
    intro ends
    have clash := isName.symm.trans ends.comment
    cases clash
  have here : (Utf8.bytes source).drop (textOf before).length = lexeme.text ++ (textOf after ++ []) := by
    have whole := lexes.text
    rw [whole, textOf_append, textOf_cons]
    simp
  have ran := @scan_reads source _ _ _ readsBefore calm [] 0 1 none (by rw [List.drop_zero])
  have passed := @passes_takes source _ _ lexes.takes calmName
    ([] ++ foundIn (textOf (lexeme :: after)) none 0 1 before) (0 + (textOf before).length)
    (1 + (textOf before).count (b '\n')) (leavesAll none before) (by rwa [Nat.zero_add])
  have missed : lexeme.found (leavesAll none before) (0 + (textOf before).length)
      (1 + (textOf before).count (b '\n')) (textOf after ++ []) = [] := by
    rw [Lexeme.found, if_neg]
    rintro ⟨_, notPoint, notColon, _⟩
    rcases leaves_hidden hidden none with point | colon
    · exact notPoint point
    · exact notColon colon
  rw [freeNames, ran, passed, missed, List.append_nil, List.nil_append] at scanned
  have positive := List.length_pos_iff.mpr (takes_nonempty lexes.takes)
  intro member
  cases finished : scan (Utf8.bytes source) _ with
  | error panic =>
      rw [finished] at scanned
      cases scanned
  | ok final =>
      rw [finished] at scanned
      obtain ⟨later, grown, starts⟩ := scan_adds finished
      rw [← Except.ok.inj scanned, grown] at member
      rcases List.mem_append.mp member with earlier | afterwards
      · obtain ⟨front, found, back, rfl, _, same⟩ := mem_foundIn earlier
        have nonempty := List.length_pos_iff.mpr
          (takes_nonempty (@Reads.takes _ _ front back _ readsBefore))
        have atStart := congrArg FreeName.start same
        simp only [nameAt, textOf_append, textOf_cons, List.length_append] at atStart
        omega
      · have ahead := starts _ afterwards
        simp only [nameAt] at ahead
        omega

theorem bareReturns_none {text : List UInt8} (none_ : b '\r' ∉ text) : bareReturns text = 0 := by
  fun_induction bareReturns text with
  | case1 => rfl
  | case2 => simp at none_
  | case3 byte other => rfl
  | case4 byte next rest newline ends ih => exact ih fun later => none_ (by simp [later])
  | case5 byte next rest newline ends ih =>
      rw [ih fun later => none_ (List.mem_cons_of_mem _ later), if_neg]
      rintro rfl
      exact none_ List.mem_cons_self
  | case6 byte next rest sameLine ih => exact ih fun later => none_ (List.mem_cons_of_mem _ later)

theorem visible_plain {lexemes : List Lexeme} (none_ : b '\r' ∉ textOf lexemes)
    (open_ : ∀ lexeme ∈ lexemes, lexeme.kind = .symbol → lexeme.text ∉ accessLike) :
    Visible lexemes ∧ ¬ ReturnEnded lexemes [] := by
  constructor
  · rintro before lexeme after rfl _
    constructor
    · rintro ⟨front, mark, gap, rfl, isSymbol, access, _⟩
      exact open_ mark (by simp) isSymbol access
    · apply bareReturns_none
      intro held
      rw [textOf_append, List.mem_append] at none_
      exact none_ (Or.inl held)
  · rintro ⟨before, lexeme, after, rfl, ends⟩
    have first := List.mem_of_mem_head? ends.return_
    rw [List.append_nil] at first
    rw [textOf_append, textOf_cons] at none_
    simp [first] at none_

/-- The scan is right about a script only if every free use is visible; and it is, if besides no
short comment is ended by a bare carriage return. -/
theorem scansNames_visible {source : String} {lexemes : List Lexeme}
    (lexes : Lexes (Utf8.bytes source) lexemes) :
    (ScansNames source lexemes → Visible lexemes) ∧
      (Visible lexemes → ¬ ReturnEnded lexemes [] → ScansNames source lexemes) := by
  constructor
  · rintro ⟨⟨names, scanned, reports⟩, _⟩ before lexeme after rfl free
    have found := reports.finds before lexeme after rfl free
    have noReturns : bareReturns (textOf before) = 0 := by
      have counted := names_line scanned found
      have front : (Utf8.bytes source).take (textOf before).length = textOf before := by
        rw [lexes.text, textOf_append, List.append_assoc, List.take_left]
      simp only [nameAt, front] at counted
      have lines := breaks_eq (textOf before)
      omega
    refine ⟨fun hidden => ?_, noReturns⟩
    exact hidden_missed lexes free.isName noReturns hidden scanned found
  · intro visible calm
    obtain ⟨names, scanned, reports⟩ := reports_visible lexes visible calm
    exact ⟨⟨names, scanned, reports⟩, loads_checked scanned reports⟩

/-- A field, a string and a comment name `os`; the script uses `x` and `state`. -/
def mentions : List Lexeme :=
  [⟨.name, Utf8.bytes "x"⟩, symbol ".", ⟨.name, Utf8.bytes "os"⟩, ⟨.string, Utf8.bytes "'os'"⟩,
    ⟨.comment, Utf8.bytes "--os"⟩, ⟨.blank, Utf8.bytes "\n"⟩, ⟨.name, Utf8.bytes "state"⟩,
    symbol "(", symbol ")"]

theorem lexes_mentions : Lexes (Utf8.bytes "x.os'os'--os\nstate()") mentions := by
  have head {is : UInt8 → Bool} {answer : Bool} {next : UInt8} {rest : List UInt8}
      (here : is next = answer) : ∀ byte, (next :: rest).head? = some byte → is byte = answer := by
    intro byte first
    rw [← Option.some.inj first]
    exact here
  have single {byte : UInt8} {rest : List UInt8} (notBlank : isBlank byte = false)
      (notQuote : byte ≠ b '"' ∧ byte ≠ b '\'') (notDigit : isAsciiDigit byte = false)
      (noFraction : byte = b '.' → ∀ next, rest.head? = some next → isAsciiDigit next = false)
      (notName : startsName byte = false) (notOpening : byte ≠ b '[')
      (notComment : ¬ [b '-', b '-'] <+: byte :: rest)
      (alone : ∀ symbol ∈ longSymbols, ¬ symbol <+: byte :: rest) : SingleSymbol byte rest :=
    ⟨notBlank, notQuote, ⟨notDigit, noFraction⟩, notName, notComment,
      fun opens => absurd opens notOpening, alone⟩
  have quoted : Quoted (b '\'') (Utf8.bytes "os") :=
    .plain (by decide) (by decide) (by decide) (.plain (by decide) (by decide) (by decide) .done)
  have short : ¬ OpensLong (Utf8.bytes "os" ++ Utf8.bytes "\nstate()") := by
    rintro ⟨level, rest, same⟩
    exact absurd (List.cons.inj same).1 (by decide)
  exact Reads.next (@Takes.name (b 'x') [] (Utf8.bytes ".os'os'--os\nstate()") (by decide)
      (by decide) (head (by decide)))
    (Reads.next (@Takes.symbol (b '.') (Utf8.bytes "os'os'--os\nstate()")
      (single (by decide) (by decide) (by decide) (fun _ => head (by decide)) (by decide) (by decide)
        (by decide) (by decide)))
    (Reads.next (@Takes.name (b 'o') [b 's'] (Utf8.bytes "'os'--os\nstate()") (by decide)
      (by decide) (head (by decide)))
    (Reads.next (@Takes.shortString (b '\'') (Utf8.bytes "os") (Utf8.bytes "--os\nstate()")
      (Or.inr rfl) quoted)
    (Reads.next (@Takes.shortComment (Utf8.bytes "os") (Utf8.bytes "\nstate()") (by decide)
      (head (by decide)) short)
    (Reads.next (@Takes.blank (b '\n') (Utf8.bytes "state()") (by decide))
    (Reads.next (@Takes.name (b 's') (Utf8.bytes "tate") (Utf8.bytes "()") (by decide) (by decide)
      (head (by decide)))
    (Reads.next (@Takes.symbol (b '(') (Utf8.bytes ")")
      (single (by decide) (by decide) (by decide) (fun point => absurd point (by decide)) (by decide)
        (by decide) (by decide) (by decide)))
    (Reads.next (@Takes.symbol (b ')') []
      (single (by decide) (by decide) (by decide) (fun point => absurd point (by decide)) (by decide)
        (by decide) (by decide) (by decide)))
    Reads.done))))))))

theorem scansNames_state :
    ScansNames "x.os'os'--os\nstate()" mentions ∧
      freeNames "x.os'os'--os\nstate()" =
        .ok [⟨Utf8.bytes "x", 0, 1⟩, ⟨Utf8.bytes "state", 13, 2⟩] := by
  obtain ⟨visible, calm⟩ := @visible_plain mentions (by decide) (by decide)
  exact ⟨(scansNames_visible lexes_mentions).2 visible calm, by decide +kernel⟩

def concatenation : List Lexeme :=
  [⟨.name, Utf8.bytes "_"⟩, symbol "=", ⟨.name, Utf8.bytes "x"⟩, symbol "..",
    ⟨.name, Utf8.bytes "os"⟩]

theorem lexes_concatenation : Lexes (Utf8.bytes "_=x..os") concatenation := by
  have ends (next : UInt8) (rest : List UInt8) (other : isNamePart next = false) :
      ∀ byte, (next :: rest).head? = some byte → isNamePart byte = false := by
    intro byte first
    rw [← Option.some.inj first]
    exact other
  have equals : SingleSymbol (b '=') (Utf8.bytes "x..os") := by
    refine ⟨by decide, by decide, ⟨by decide, by decide⟩, by decide, by decide, by decide, by decide⟩
  exact Reads.next (@Takes.name (b '_') [] (Utf8.bytes "=x..os") (by decide) (by decide)
      (ends _ _ (by decide)))
    (Reads.next (@Takes.symbol (b '=') (Utf8.bytes "x..os") equals)
    (Reads.next (@Takes.name (b 'x') [] (Utf8.bytes "..os") (by decide) (by decide)
      (ends _ _ (by decide)))
    (Reads.next (@Takes.longSymbol (Utf8.bytes "..") (Utf8.bytes "os") (by decide) (by decide))
    (Reads.next (@Takes.name (b 'o') [b 's'] [] (by decide) (by decide) (by simp)) Reads.done))))

/-- Behind `..` the scan takes `os` for a field. -/
theorem scansNames_concatenation :
    Lexes (Utf8.bytes "_=x..os") concatenation ∧ ¬ ScansNames "_=x..os" concatenation := by
  refine ⟨lexes_concatenation, ?_⟩
  rintro ⟨⟨names, scanned, reports⟩, _⟩
  have found : freeNames "_=x..os" = .ok [⟨Utf8.bytes "x", 2, 1⟩] := by decide
  rw [found] at scanned
  obtain rfl := Except.ok.inj scanned
  have member := reports.finds (concatenation.take 4) ⟨.name, Utf8.bytes "os"⟩ [] rfl
    ⟨rfl, by decide, by decide, by decide⟩
  exact absurd member (by decide)

end FusionPipeline.Lua
