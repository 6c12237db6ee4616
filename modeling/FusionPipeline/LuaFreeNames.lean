import FusionPipeline.LuaReads

/-! The names the scan reports against the free names of the source. -/

namespace FusionPipeline.Lua

open Regex (b Panic)
open Loop (lt_of_drop drop_append)

def leavesAll (previous : Option UInt8) (lexemes : List Lexeme) : Option UInt8 :=
  lexemes.foldl (fun previous lexeme => lexeme.leaves previous) previous

def foundIn (rest : List UInt8) : Option UInt8 → Nat → Nat → List Lexeme → List FreeName
  | _, _, _, [] => []
  | previous, i, line, lexeme :: more =>
      lexeme.found previous i line (textOf more ++ rest) ++
        foundIn rest (lexeme.leaves previous) (i + lexeme.text.length)
          (line + lexeme.text.count (b '\n')) more

theorem textOf_cons (lexeme : Lexeme) (more : List Lexeme) :
    textOf (lexeme :: more) = lexeme.text ++ textOf more := by
  rfl

theorem textOf_append (before after : List Lexeme) :
    textOf (before ++ after) = textOf before ++ textOf after := by
  exact List.flatMap_append

theorem Reads.text {input rest : List UInt8} {lexemes : List Lexeme}
    (reads : Reads input lexemes rest) : input = textOf lexemes ++ rest := by
  induction reads with
  | done => rfl
  | next takes reads ih => rw [textOf_cons, List.append_assoc, ← ih]

theorem Reads.split {input rest : List UInt8} {before after : List Lexeme}
    (reads : Reads input (before ++ after) rest) :
    Reads input before (textOf after ++ rest) ∧ Reads (textOf after ++ rest) after rest := by
  induction before generalizing input with
  | nil =>
      have whole := reads.text
      rw [List.nil_append] at whole reads
      exact ⟨whole ▸ Reads.done, whole ▸ reads⟩
  | cons lexeme before ih =>
      cases reads with
      | next takes reads =>
          obtain ⟨front, back⟩ := ih reads
          exact ⟨Reads.next takes front, back⟩

def ReturnEnded (lexemes : List Lexeme) (rest : List UInt8) : Prop :=
  ∃ before lexeme after, lexemes = before ++ lexeme :: after ∧
    lexeme.ReturnEnds (textOf after ++ rest)

theorem scan_reads {source : String} {input rest : List UInt8} {lexemes : List Lexeme}
    (reads : Reads input lexemes rest) (calm : ¬ ReturnEnded lexemes rest) {names : List FreeName}
    {i line : Nat} {previous : Option UInt8} (here : (Utf8.bytes source).drop i = input) :
    scan (Utf8.bytes source) ⟨names, i, line, previous⟩ =
      scan (Utf8.bytes source) ⟨names ++ foundIn rest previous i line lexemes,
        i + (textOf lexemes).length, line + (textOf lexemes).count (b '\n'),
        leavesAll previous lexemes⟩ := by
  induction reads generalizing names i line previous with
  | done =>
      rw [foundIn, List.append_nil]
      rfl
  | @next lexeme middle rest more takes reads ih =>
      have text := reads.text
      have passes := @passes_takes source lexeme middle takes (fun ends =>
        calm ⟨[], lexeme, more, rfl, text ▸ ends⟩)
      have calmLater : ¬ ReturnEnded more rest := by
        rintro ⟨before, other, after, whole, ends⟩
        exact calm ⟨lexeme :: before, other, after, by rw [whole]; rfl, ends⟩
      rw [passes names i line previous here, ih calmLater (drop_append here), foundIn, textOf_cons,
        List.length_append, List.count_append, List.append_assoc, text, Nat.add_assoc, Nat.add_assoc]
      rfl

theorem foundIn_append (rest : List UInt8) (before after : List Lexeme) (previous : Option UInt8)
    (i line : Nat) :
    foundIn rest previous i line (before ++ after) =
      foundIn (textOf after ++ rest) previous i line before ++
        foundIn rest (leavesAll previous before) (i + (textOf before).length)
          (line + (textOf before).count (b '\n')) after := by
  induction before generalizing previous i line with
  | nil => rfl
  | cons lexeme before ih =>
      rw [List.cons_append, foundIn, foundIn, ih, textOf_append, textOf_cons, List.length_append,
        List.count_append, List.append_assoc, List.append_assoc, Nat.add_assoc, Nat.add_assoc]
      rfl

theorem mem_found {lexeme : Lexeme} {previous : Option UInt8} {i line : Nat} {rest : List UInt8}
    {name : FreeName} (member : name ∈ lexeme.found previous i line rest) :
    lexeme.kind = .name ∧ name = ⟨lexeme.text, i, line⟩ := by
  rw [Lexeme.found] at member
  split at member
  next free => exact ⟨free.1, List.mem_singleton.mp member⟩
  · simp at member

theorem mem_foundIn {rest : List UInt8} {lexemes : List Lexeme} {previous : Option UInt8}
    {i line : Nat} {name : FreeName} (member : name ∈ foundIn rest previous i line lexemes) :
    ∃ before lexeme after, lexemes = before ++ lexeme :: after ∧ lexeme.kind = .name ∧
      name = ⟨lexeme.text, i + (textOf before).length,
        line + (textOf before).count (b '\n')⟩ := by
  induction lexemes generalizing previous i line with
  | nil => simp [foundIn] at member
  | cons lexeme more ih =>
      rcases List.mem_append.mp member with here | later
      · obtain ⟨isName, same⟩ := mem_found here
        exact ⟨[], lexeme, more, rfl, isName, same⟩
      · obtain ⟨before, other, after, whole, isName, same⟩ := ih later
        refine ⟨lexeme :: before, other, after, by rw [whole]; rfl, isName, ?_⟩
        rw [same, textOf_cons, List.length_append, List.count_append, Nat.add_assoc, Nat.add_assoc]

theorem takes_nonempty {lexeme : Lexeme} {rest : List UInt8} (takes : Takes lexeme rest) :
    lexeme.text ≠ [] := by
  cases takes with
  | numeral numeral ends =>
      obtain ⟨point, digits, scale, rfl, _, ⟨digit, more, rfl, _⟩, _, _⟩ := numeral_shape numeral
      simp
  | longString long =>
      cases long
      simp [opening]
  | longSymbol known longest =>
      have shapes : ∀ text ∈ longSymbols, text ≠ [] := by decide
      exact shapes _ known
  | _ => simp

theorem Reads.takes {input rest : List UInt8} {before after : List Lexeme} {lexeme : Lexeme}
    (reads : Reads input (before ++ lexeme :: after) rest) :
    Takes lexeme (textOf after ++ rest) := by
  have first {input : List UInt8} (back : Reads input (lexeme :: after) rest) :
      Takes lexeme (textOf after ++ rest) := by
    cases back with
    | next takes more => exact more.text ▸ takes
  exact first reads.split.2

theorem isNewline_iff (byte : UInt8) : isNewline byte = true ↔ byte = b '\n' ∨ byte = b '\r' := by
  simp [isNewline]

theorem breaks_eq : ∀ text : List UInt8, breaks text = text.count (b '\n') + bareReturns text
  | [] => rfl
  | [byte] => by
      rw [breaks, bareReturns, count_cons_newline]
      by_cases newline : byte = b '\n'
      · rw [newline]
        decide
      · by_cases return_ : byte = b '\r'
        · rw [return_]
          decide
        · simp [isNewline, newline, return_]
  | byte :: next :: rest => by
      have shorter := breaks_eq rest
      have later := breaks_eq (next :: rest)
      have apart : ¬ b '\n' = b '\r' := by decide
      have apart' : ¬ b '\r' = b '\n' := by decide
      rw [breaks, bareReturns]
      split
      next ending =>
        split
        next pair =>
          -- Two different newline bytes are one break, and one of them is a newline.
          rw [Bool.and_eq_true, bne_iff_ne, isNewline_iff] at pair
          rw [count_cons_newline, count_cons_newline, shorter]
          rcases (isNewline_iff byte).mp ending with rfl | rfl
          · rcases pair with ⟨rfl | rfl, other⟩
            · exact absurd rfl other
            · rw [if_neg apart', if_pos rfl]
              omega
          · rcases pair with ⟨rfl | rfl, other⟩
            · rw [if_pos rfl, if_neg apart']
              omega
            · exact absurd rfl other
        next =>
          rw [count_cons_newline byte, later]
          rcases (isNewline_iff byte).mp ending with rfl | rfl
          · rw [if_pos rfl, if_neg apart]
            omega
          · rw [if_neg apart', if_pos rfl]
            omega
      next other =>
        have notNewline : ¬ byte = b '\n' := fun same => other ((isNewline_iff byte).mpr (Or.inl same))
        rw [count_cons_newline byte, later, if_neg notNewline]
        omega

theorem bareReturns_append (last : UInt8) (sameLine : isNewline last = false) (back : List UInt8) :
    ∀ front : List UInt8, bareReturns back ≤ bareReturns (front ++ last :: back)
  | [] => by
      rw [List.nil_append]
      cases back with
      | nil => exact Nat.zero_le _
      | cons next rest =>
          rw [bareReturns, if_neg (by rw [sameLine]; decide)]
  | [byte] => by
      have inner := bareReturns_append last sameLine back []
      rw [List.nil_append] at inner
      rw [List.singleton_append, bareReturns]
      split
      · rw [sameLine, Bool.false_and, if_neg (by decide)]
        exact Nat.le_trans inner (Nat.le_add_right _ _)
      · exact inner
  | byte :: next :: front => by
      have shorter := bareReturns_append last sameLine back front
      have later := bareReturns_append last sameLine back (next :: front)
      rw [List.cons_append] at later
      rw [List.cons_append, List.cons_append, bareReturns]
      split
      · split
        · exact shorter
        · exact Nat.le_trans later (Nat.le_add_right _ _)
      · exact later

theorem bareReturns_pos {more : List UInt8} (bare : more.head? ≠ some (b '\n')) :
    0 < bareReturns (b '\r' :: more) := by
  cases more with
  | nil => decide
  | cons next rest =>
      have notNewline : ¬ next = b '\n' := by simpa using bare
      have newline : isNewline (b '\r') = true := by decide
      have unpaired : ¬ (isNewline next && next != b '\r') = true := by
        rw [Bool.and_eq_true, isNewline_iff, bne_iff_ne]
        rintro ⟨same | same, other⟩
        · exact notNewline same
        · exact other same
      rw [bareReturns, if_pos newline, if_neg unpaired, if_pos rfl]
      exact Nat.succ_pos _

theorem assigned_space {byte : UInt8} (space : isAsciiWhitespace byte = true)
    (sameLine : byte ≠ b '\n') (rest : List UInt8) : assigned (byte :: rest) = assigned rest := by
  simp [assigned, space, sameLine]

theorem assigned_other {byte : UInt8} (other : isAsciiWhitespace byte = false ∨ byte = b '\n')
    (rest : List UInt8) :
    assigned (byte :: rest) = (byte == b '=' && rest[0]? != some (b '=')) := by
  have stops : (isAsciiWhitespace byte && byte != b '\n') = false := by
    rcases other with notSpace | rfl
    · rw [notSpace, Bool.false_and]
    · decide
  rw [assigned, List.dropWhile_cons_of_neg (by rw [stops]; decide)]
  simp

theorem isAsciiDigit_notSpace {digit : UInt8} (isDigit : isAsciiDigit digit = true) :
    isAsciiWhitespace digit = false := by
  rw [Bool.eq_false_iff]
  intro space
  simp only [isAsciiWhitespace, Bool.or_eq_true, beq_iff_eq] at space
  rcases space with (((rfl | rfl) | rfl) | rfl) | rfl <;> exact absurd isDigit (by decide)

theorem assigned_next {input rest : List UInt8} {lexemes : List Lexeme}
    (reads : Reads input lexemes rest) (ended : rest = []) (followed : assigned input = true) :
    nextToken lexemes = some (symbol "=") := by
  induction reads with
  | done =>
      rw [ended] at followed
      cases followed
  | @next lexeme middle rest more takes reads ih =>
      have never {byte : UInt8} {after : List UInt8}
          (other : isAsciiWhitespace byte = false ∨ byte = b '\n') (notEquals : byte ≠ b '=')
          (follows : assigned (byte :: after) = true) : False := by
        rw [assigned_other other, beq_eq_false_iff_ne.mpr notEquals, Bool.false_and] at follows
        cases follows
      cases takes with
      | @blank byte _ blank =>
          by_cases skipped : isAsciiWhitespace byte = true ∧ byte ≠ b '\n'
          · rw [List.singleton_append, assigned_space skipped.1 skipped.2] at followed
            exact ih ended followed
          · have other : isAsciiWhitespace byte = false ∨ byte = b '\n' := by
              by_cases newline : byte = b '\n'
              · exact Or.inr newline
              · exact Or.inl (Bool.eq_false_iff.mpr fun space => skipped ⟨space, newline⟩)
            refine (never other ?_ followed).elim
            rintro rfl
            exact absurd blank (by decide)
      | longComment long => exact (never (Or.inl (by decide)) (by decide) followed).elim
      | shortComment sameLine ends short =>
          exact (never (Or.inl (by decide)) (by decide) followed).elim
      | @name first _ _ starts parts ends =>
          refine (never (Or.inl (startsName_other starts).1) ?_ followed).elim
          rintro rfl
          exact absurd starts (by decide)
      | numeral numeral ends =>
          obtain ⟨point, digits, scale, rfl, leads, ⟨digit, tail, rfl, isDigit⟩, _, _⟩ :=
            numeral_shape numeral
          rcases leads with rfl | rfl
          · refine (never (Or.inl (isAsciiDigit_notSpace isDigit)) ?_ followed).elim
            rintro rfl
            exact absurd isDigit (by decide)
          · exact (never (Or.inl (by decide)) (by decide) followed).elim
      | longString long =>
          cases long
          exact (never (Or.inl (by decide)) (by decide) followed).elim
      | shortString known quoted =>
          rcases known with rfl | rfl
          · exact (never (Or.inl (by decide)) (by decide) followed).elim
          · exact (never (Or.inl (by decide)) (by decide) followed).elim
      | @longSymbol text _ known longest =>
          have shapes : ∀ text ∈ longSymbols, 2 ≤ text.length ∧
              isAsciiWhitespace (text.headD 0) = false ∧
                (text.headD 0 = b '=' → text[1]? = some (b '=')) := by decide
          obtain ⟨long, notSpace, twice⟩ := shapes text known
          rcases text with _ | ⟨first, _ | ⟨second, tail⟩⟩
          · simp at long
          · simp at long
          · rw [List.headD_cons] at notSpace twice
            rw [List.cons_append, assigned_other (Or.inl notSpace)] at followed
            rw [Bool.and_eq_true, beq_iff_eq, bne_iff_ne] at followed
            exact absurd (twice followed.1) followed.2
      | @symbol byte _ single =>
          have notSpace : isAsciiWhitespace byte = false := by
            have notBlank := single.notBlank
            simp only [isBlank, Bool.or_eq_false_iff] at notBlank
            exact notBlank.1
          rw [List.singleton_append, assigned_other (Or.inl notSpace)] at followed
          rw [Bool.and_eq_true, beq_iff_eq] at followed
          rw [followed.1]
          rfl

def accessLike : List (List UInt8) :=
  ["..", "...", "::"].map Utf8.bytes

/-- One of these symbols stands right before, with nothing but comments and whitespace, and no
vertical tab, in between. -/
def Hidden (before : List Lexeme) : Prop :=
  ∃ front mark gap, before = front ++ mark :: gap ∧ mark.kind = .symbol ∧ mark.text ∈ accessLike ∧
    ∀ lexeme ∈ gap, lexeme.isToken = false ∧ lexeme.text ≠ [verticalTab]

theorem leavesAll_append (previous : Option UInt8) (before after : List Lexeme) :
    leavesAll previous (before ++ after) = leavesAll (leavesAll previous before) after := by
  exact List.foldl_append

theorem leaves_gap {lexeme : Lexeme} (gap : lexeme.isToken = false)
    (noTab : lexeme.text ≠ [verticalTab]) (previous : Option UInt8) :
    lexeme.leaves previous = previous := by
  obtain ⟨kind, text⟩ := lexeme
  cases kind with
  | blank => exact if_neg noTab
  | comment => rfl
  | name => cases gap
  | numeral => cases gap
  | string => cases gap
  | symbol => cases gap

theorem leaves_hidden {before : List Lexeme} (hidden : Hidden before) (previous : Option UInt8) :
    leavesAll previous before = some (b '.') ∨ leavesAll previous before = some (b ':') := by
  obtain ⟨front, ⟨kind, text⟩, gap, rfl, isSymbol, known, between⟩ := hidden
  obtain rfl : kind = .symbol := isSymbol
  have kept : ∀ (gap : List Lexeme) (last : Option UInt8),
      (∀ lexeme ∈ gap, lexeme.isToken = false ∧ lexeme.text ≠ [verticalTab]) →
        leavesAll last gap = last := by
    intro gap last between
    induction gap with
    | nil => rfl
    | cons lexeme gap ih =>
        obtain ⟨here, later⟩ := List.forall_mem_cons.mp between
        show leavesAll (lexeme.leaves last) gap = last
        rw [leaves_gap here.1 here.2, ih later]
  have last : ∀ text ∈ accessLike, text.getLast? = some (b '.') ∨ text.getLast? = some (b ':') := by
    decide
  rw [leavesAll_append]
  show leavesAll (Lexeme.leaves ⟨.symbol, text⟩ (leavesAll previous front)) gap = _ ∨
    leavesAll (Lexeme.leaves ⟨.symbol, text⟩ (leavesAll previous front)) gap = _
  rw [kept gap _ between]
  exact last text known

theorem lastToken_append (front : List Lexeme) (lexeme : Lexeme) :
    lastToken (front ++ [lexeme]) = if lexeme.isToken then some lexeme else lastToken front := by
  rw [lastToken, List.reverse_append, List.reverse_singleton, List.singleton_append,
    List.find?_cons]
  cases lexeme.isToken <;> rfl

theorem Hidden.later {front : List Lexeme} {lexeme : Lexeme} (hidden : Hidden front)
    (gap : lexeme.isToken = false) (noTab : lexeme.text ≠ [verticalTab]) :
    Hidden (front ++ [lexeme]) := by
  obtain ⟨before, mark, between, rfl, isSymbol, known, all⟩ := hidden
  refine ⟨before, mark, between ++ [lexeme], by simp, isSymbol, known, ?_⟩
  intro other member
  rcases List.mem_append.mp member with inGap | last
  · exact all other inGap
  · rw [List.mem_singleton.mp last]
    exact ⟨gap, noTab⟩

theorem leaves_takes {lexeme : Lexeme} {rest : List UInt8} (takes : Takes lexeme rest)
    {previous : Option UInt8}
    (access : lexeme.leaves previous = some (b '.') ∨ lexeme.leaves previous = some (b ':')) :
    (lexeme.isToken = false ∧ lexeme.text ≠ [verticalTab]) ∨ lexeme = symbol "." ∨
      lexeme = symbol ":" ∨ lexeme.kind = .symbol ∧ lexeme.text ∈ accessLike := by
  have other {value : UInt8} (notAccess : value ≠ b '.' ∧ value ≠ b ':')
      (leaves : lexeme.leaves previous = some value) : False := by
    rw [leaves] at access
    rcases access with same | same
    · exact notAccess.1 (Option.some.inj same)
    · exact notAccess.2 (Option.some.inj same)
  cases takes with
  | @blank byte _ blank =>
      by_cases tab : [byte] = [verticalTab]
      · exact (@other verticalTab (by decide) (if_pos tab)).elim
      · exact Or.inl ⟨rfl, tab⟩
  | longComment long => exact Or.inl ⟨rfl, by simp⟩
  | shortComment sameLine ends short => exact Or.inl ⟨rfl, by simp⟩
  | name starts parts ends => exact (@other (b 'a') (by decide) rfl).elim
  | numeral numeral ends => exact (@other (b '0') (by decide) rfl).elim
  | longString long =>
      cases long with
      | intro level body first => exact (@other (b ']') (by decide) rfl).elim
  | shortString known quoted =>
      rcases known with rfl | rfl
      · exact (@other (b '"') (by decide) rfl).elim
      · exact (@other (b '\'') (by decide) rfl).elim
  | @longSymbol text _ known longest =>
      have last : ∀ text ∈ longSymbols,
          text.getLast? = some (b '.') ∨ text.getLast? = some (b ':') → text ∈ accessLike := by decide
      exact Or.inr (Or.inr (Or.inr ⟨rfl, last text known access⟩))
  | @symbol byte _ single =>
      rcases access with same | same
      · obtain rfl : byte = b '.' := Option.some.inj same
        exact Or.inr (Or.inl rfl)
      · obtain rfl : byte = b ':' := Option.some.inj same
        exact Or.inr (Or.inr (Or.inl rfl))

theorem leaves_access {input rest : List UInt8} {before : List Lexeme}
    (reads : Reads input before rest)
    (access : leavesAll none before = some (b '.') ∨ leavesAll none before = some (b ':')) :
    lastToken before = some (symbol ".") ∨ lastToken before = some (symbol ":") ∨ Hidden before := by
  induction before using List.reverseRecOn generalizing rest with
  | nil => rcases access with none_ | none_ <;> cases none_
  | append_singleton front lexeme ih =>
      rw [leavesAll_append] at access
      rcases leaves_takes reads.takes access with ⟨gap, noTab⟩ | rfl | rfl | ⟨isSymbol, known⟩
      · have earlier : leavesAll none front = some (b '.') ∨ leavesAll none front = some (b ':') := by
          rw [← leaves_gap gap noTab (leavesAll none front)]
          exact access
        rw [lastToken_append, if_neg (by rw [gap]; decide)]
        rcases ih reads.split.1 earlier with point | colon | hidden
        · exact Or.inl point
        · exact Or.inr (Or.inl colon)
        · exact Or.inr (Or.inr (hidden.later gap noTab))
      · rw [lastToken_append]
        exact Or.inl rfl
      · rw [lastToken_append]
        exact Or.inr (Or.inl rfl)
      · exact Or.inr (Or.inr ⟨front, lexeme, [], rfl, isSymbol, known, by simp⟩)

end FusionPipeline.Lua
