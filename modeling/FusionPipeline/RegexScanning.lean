import FusionPipeline.RegexRewrites

/-! The syntax the rewriter replaces, and both scans against what a pattern reads as. -/

namespace FusionPipeline.Regex

inductive Pcre2Only : List UInt8 → List UInt8 → Prop where
  | opener {text : List UInt8} (known : text ∈ openers) : Pcre2Only text plainGroup
  | named {name : List UInt8} (closed : b ')' ∉ name) :
      Pcre2Only (namedReference ++ name ++ [b ')']) emptyGroup
  | digit {value : UInt8} (low : b '1' ≤ value) (high : value ≤ b '9') :
      Pcre2Only [b '\\', value] emptyGroup
  | bracketed {letter opener closer : UInt8} {name : List UInt8}
      (known : letter = b 'g' ∨ letter = b 'k') (pair : closerOf opener = some closer)
      (closed : closer ∉ name) :
      Pcre2Only (b '\\' :: letter :: opener :: name ++ [closer]) emptyGroup

def Recognizes (special : List UInt8 → Option (List UInt8 × Nat)) : Prop :=
  ∀ rest replacement length, special rest = some (replacement, length) ↔
    ∃ text, text <+: rest ∧ text.length = length ∧ Pcre2Only text replacement

theorem findIdx?_iff (bytes : List UInt8) (value : UInt8) (position : Nat) :
    bytes.findIdx? (fun byte => byte == value) = some position ↔
      ∃ before after, bytes = before ++ value :: after ∧ value ∉ before ∧
        before.length = position := by
  rw [List.findIdx?_eq_some_iff_getElem]
  constructor
  · rintro ⟨inside, same, first⟩
    refine ⟨bytes.take position, bytes.drop (position + 1), ?_, ?_, ?_⟩
    · rw [← eq_of_beq same, List.getElem_cons_drop, List.take_append_drop]
    · intro earlier
      obtain ⟨index, below, here⟩ := List.mem_iff_getElem.mp earlier
      rw [List.length_take] at below
      rw [List.getElem_take] at here
      have missed := first index (by omega)
      simp [here] at missed
    · rw [List.length_take]
      omega
  · rintro ⟨before, after, rfl, absent, rfl⟩
    refine ⟨by simp, by simp, ?_⟩
    intro index below
    rw [List.getElem_append_left below]
    intro same
    exact absent (eq_of_beq same ▸ List.getElem_mem below)

theorem bracketedLen_iff (rest : List UInt8) (length : Nat) :
    bracketedLen rest = some length ↔
      ∃ opener closer name after, rest = opener :: name ++ closer :: after ∧
        closerOf opener = some closer ∧ closer ∉ name ∧ length = name.length + 2 := by
  cases rest with
  | nil => simp [bracketedLen]
  | cons first inner =>
      simp only [bracketedLen, Option.bind_eq_some_iff, Option.map_eq_some_iff, findIdx?_iff]
      constructor
      · rintro ⟨closer, pair, position, ⟨name, after, rfl, absent, rfl⟩, rfl⟩
        exact ⟨first, closer, name, after, rfl, pair, absent, rfl⟩
      · rintro ⟨opener, closer, name, after, same, pair, absent, rfl⟩
        obtain ⟨rfl, rfl⟩ := List.cons.inj same
        exact ⟨closer, pair, _, ⟨name, after, rfl, absent, rfl⟩, rfl⟩

theorem escapedReference_iff (after : List UInt8) (length : Nat) :
    escapedReference (b '\\' :: after) = some length ↔
      ∃ text, text <+: b '\\' :: after ∧ text.length = length ∧ text.head? = some (b '\\') ∧
        Pcre2Only text emptyGroup := by
  constructor
  · intro read
    rw [escapedReference] at read
    cases after with
    | nil => simp at read
    | cons next more =>
        simp only [List.getElem?_cons_succ, List.getElem?_cons_zero] at read
        split at read
        next digit =>
          obtain rfl := Option.some.inj read
          exact ⟨[b '\\', next], ⟨more, rfl⟩, rfl, rfl, Pcre2Only.digit digit.1 digit.2⟩
        · split at read
          next letter =>
            obtain ⟨inner, bracketed, rfl⟩ := Option.map_eq_some_iff.mp read
            obtain ⟨opener, closer, name, later, same, pair, absent, rfl⟩ :=
              (bracketedLen_iff _ _).mp bracketed
            obtain rfl : more = opener :: name ++ closer :: later := same
            refine ⟨b '\\' :: next :: opener :: name ++ [closer], ⟨later, by simp⟩, by simp, rfl, ?_⟩
            exact Pcre2Only.bracketed letter pair absent
          · cases read
  · rintro ⟨text, ⟨later, whole⟩, rfl, starts, construct⟩
    cases construct with
    | @named name closed =>
        have first : (namedReference ++ name ++ [b ')']).head? = some (b '(') := rfl
        rw [first] at starts
        exact absurd starts (by decide)
    | @digit value low high =>
        obtain ⟨_, rfl⟩ := List.cons.inj whole
        rw [escapedReference]
        simp [low, high]
    | @bracketed letter opener closer name known pair closed =>
        obtain rfl : after = letter :: opener :: name ++ closer :: later := by
          simpa using whole.symm
        have notDigit : ¬ (b '1' ≤ letter ∧ letter ≤ b '9') := by
          rcases known with rfl | rfl <;> decide
        have inner : bracketedLen (opener :: name ++ closer :: later) = some (name.length + 2) :=
          (bracketedLen_iff _ _).mpr ⟨opener, closer, name, later, rfl, pair, closed, rfl⟩
        rw [escapedReference]
        simp only [List.cons_append, List.getElem?_cons_succ, List.getElem?_cons_zero,
          List.drop_succ_cons, List.drop_zero] at inner ⊢
        rw [if_neg notDigit, if_pos known, inner]
        simp

theorem openers_apart : (∀ one ∈ openers, ∀ other ∈ openers, one <+: other → one = other) ∧
    ∀ one ∈ openers, ¬ one <+: namedReference ∧ ¬ namedReference <+: one := by
  decide

theorem openers_head : ∀ opener ∈ openers, opener.head? = some (b '(') := by
  decide

theorem find_opener {text rest : List UInt8} (known : text ∈ openers) (leads : text <+: rest) :
    (openers.find? fun opener => opener.isPrefixOf rest) = some text := by
  cases found : openers.find? fun opener => opener.isPrefixOf rest with
  | none =>
      have missed := List.find?_eq_none.mp found text known
      exact absurd (List.isPrefixOf_iff_prefix.mpr leads) missed
  | some opener =>
      have other := List.mem_of_find?_eq_some found
      have front : opener.isPrefixOf rest = true := by simpa using List.find?_some found
      rcases List.prefix_or_prefix_of_prefix (List.isPrefixOf_iff_prefix.mp front) leads with
        shorter | longer
      · rw [openers_apart.1 opener other text known shorter]
      · rw [openers_apart.1 text known opener other longer]

theorem find_named {rest : List UInt8} (leads : namedReference <+: rest) :
    (openers.find? fun opener => opener.isPrefixOf rest) = none := by
  rw [List.find?_eq_none]
  intro opener known front
  rcases List.prefix_or_prefix_of_prefix (List.isPrefixOf_iff_prefix.mp front) leads with
    shorter | longer
  · exact (openers_apart.2 opener known).1 shorter
  · exact (openers_apart.2 opener known).2 longer

theorem prefix_of_absent {text before after : List UInt8} {value : UInt8}
    (leads : text <+: before ++ value :: after) (absent : value ∉ text) : text <+: before := by
  rcases List.prefix_or_prefix_of_prefix (List.prefix_append before _) leads with
    ⟨_ | ⟨next, rest⟩, cut⟩ | inside
  · rw [← cut, List.append_nil]
  · obtain ⟨more, same⟩ := leads
    rw [← cut, List.append_assoc, List.append_cancel_left_eq, List.cons_append] at same
    refine absurd ?_ absent
    rw [← cut, ← (List.cons.inj same).1]
    exact List.mem_append_right _ List.mem_cons_self
  · exact inside

theorem groupRewrite_iff (after replacement : List UInt8) (length : Nat) :
    groupRewrite (b '(' :: after) = some (replacement, length) ↔
      ∃ text, text <+: b '(' :: after ∧ text.length = length ∧ text.head? = some (b '(') ∧
        Pcre2Only text replacement := by
  constructor
  · intro rewritten
    rw [groupRewrite] at rewritten
    split at rewritten
    next opener found =>
      obtain ⟨rfl, rfl⟩ := Prod.mk.inj (Option.some.inj rewritten)
      have known := List.mem_of_find?_eq_some found
      have leads : opener.isPrefixOf (b '(' :: after) = true := by simpa using List.find?_some found
      exact ⟨opener, List.isPrefixOf_iff_prefix.mp leads, rfl, openers_head opener known,
        Pcre2Only.opener known⟩
    · split at rewritten
      next leads =>
        obtain ⟨position, found, same⟩ := Option.map_eq_some_iff.mp rewritten
        obtain ⟨rfl, rfl⟩ := Prod.mk.inj same
        obtain ⟨before, later, whole, absent, rfl⟩ := (findIdx?_iff _ _ _).mp found
        rw [List.isPrefixOf_iff_prefix, whole] at leads
        obtain ⟨name, rfl⟩ := prefix_of_absent leads (by decide)
        refine ⟨namedReference ++ name ++ [b ')'], ⟨later, ?_⟩, by simp [Nat.add_assoc], rfl, ?_⟩
        · rw [whole]
          simp
        · exact Pcre2Only.named fun member => absent (List.mem_append_right _ member)
      · cases rewritten
  · rintro ⟨text, leads, rfl, first, construct⟩
    rw [groupRewrite]
    cases construct with
    | opener known => rw [find_opener known leads]
    | @named name closed =>
        have named : namedReference <+: b '(' :: after :=
          List.IsPrefix.trans ⟨name ++ [b ')'], by simp⟩ leads
        obtain ⟨later, whole⟩ := leads
        have ends : (b '(' :: after).findIdx? (fun byte => byte == b ')') =
            some (namedReference ++ name).length := by
          rw [findIdx?_iff]
          refine ⟨namedReference ++ name, later, by rw [← whole]; simp, ?_, rfl⟩
          intro member
          rcases List.mem_append.mp member with inFront | inName
          · exact absurd inFront (by decide)
          · exact closed inName
        rw [find_named named]
        dsimp only
        rw [if_pos (List.isPrefixOf_iff_prefix.mpr named), ends]
        simp [Nat.add_assoc]
    | digit low high => exact absurd (Option.some.inj first) (by decide)
    | bracketed known pair closed => exact absurd (Option.some.inj first) (by decide)

theorem pcre2Only_head {text replacement : List UInt8} (construct : Pcre2Only text replacement) :
    text.head? = some (b '\\') ∧ replacement = emptyGroup ∨ text.head? = some (b '(') := by
  cases construct with
  | opener known => exact Or.inr (openers_head _ known)
  | named closed => exact Or.inr rfl
  | digit low high => exact Or.inl ⟨rfl, rfl⟩
  | bracketed known pair closed => exact Or.inl ⟨rfl, rfl⟩

/-- What the rewriter replaces outside a class is the syntax only PCRE2 has. -/
theorem recognizes_rewriteAt : Recognizes rewriteAt := by
  intro rest replacement length
  cases rest with
  | nil =>
      constructor
      · intro taken
        simp [rewriteAt] at taken
      · rintro ⟨text, leads, _, construct⟩
        obtain rfl := List.prefix_nil.mp leads
        rcases pcre2Only_head construct with ⟨first, _⟩ | first <;> cases first
  | cons value after =>
      have head {text : List UInt8} {char : UInt8} (leads : text <+: value :: after)
          (first : text.head? = some char) : value = char := by
        obtain ⟨later, whole⟩ := leads
        cases text with
        | nil => cases first
        | cons front more => exact (List.cons.inj whole).1 ▸ Option.some.inj first
      rw [rewriteAt]
      simp only [List.getElem?_cons_zero, Option.some.injEq]
      by_cases isBackslash : value = b '\\'
      · subst isBackslash
        rw [if_pos rfl, Option.map_eq_some_iff]
        constructor
        · rintro ⟨found, read, same⟩
          obtain ⟨rfl, rfl⟩ := Prod.mk.inj same
          obtain ⟨text, leads, size, _, construct⟩ := (escapedReference_iff _ _).mp read
          exact ⟨text, leads, size, construct⟩
        · rintro ⟨text, leads, size, construct⟩
          rcases pcre2Only_head construct with ⟨first, rfl⟩ | first
          · exact ⟨length, (escapedReference_iff _ _).mpr ⟨text, leads, size, first, construct⟩, rfl⟩
          · exact absurd (head leads first) (by decide)
      · rw [if_neg isBackslash]
        by_cases group : value = b '('
        · subst group
          rw [if_pos rfl, groupRewrite_iff]
          constructor
          · rintro ⟨text, leads, size, _, construct⟩
            exact ⟨text, leads, size, construct⟩
          · rintro ⟨text, leads, size, construct⟩
            rcases pcre2Only_head construct with ⟨first, _⟩ | first
            · exact absurd (head leads first) isBackslash
            · exact ⟨text, leads, size, first, construct⟩
        · rw [if_neg group]
          constructor
          · intro taken
            cases taken
          · rintro ⟨text, leads, _, construct⟩
            rcases pcre2Only_head construct with ⟨first, _⟩ | first
            · exact absurd (head leads first) isBackslash
            · exact absurd (head leads first) group

theorem Recognizes.eq_rewriteAt {special : List UInt8 → Option (List UInt8 × Nat)}
    (reads : Recognizes special) : special = rewriteAt := by
  funext rest
  apply Option.ext
  rintro ⟨replacement, length⟩
  rw [reads, recognizes_rewriteAt]

/-- Both scans of a pattern see its classes where they lie; the depth guard then counts the
group parentheses, and the rewriter replaces what only PCRE2 has. -/
structure ScansClasses (special : List UInt8 → Option (List UInt8 × Nat)) (pattern : String)
    (limits : Limits) : Prop where
  guarded : guardMarks (Utf8.bytes pattern) =
    (pieces noSpecial (Utf8.bytes pattern)).flatMap Piece.marks
  rewritten : desugarMarks (Utf8.bytes pattern) =
    (pieces special (Utf8.bytes pattern)).flatMap Piece.marks
  rejects : (Utf8.bytes pattern).length ≤ limits.maxPatternLength → ∀ offset,
    (checkGuards pattern limits = .error (.parensTooDeep limits.parensNestLimit offset) ↔
      FirstDeep limits.parensNestLimit.toNat 0
        ((pieces noSpecial (Utf8.bytes pattern)).flatMap Piece.parens) offset)
  replaces : ∃ out, desugarPcre2Syntax pattern = .ok out ∧
    out.text = rendered false (pieces special (Utf8.bytes pattern))

theorem guardMarks_iff (bytes : List UInt8) :
    guardMarks bytes = (pieces noSpecial bytes).flatMap Piece.marks ↔
      ∀ piece ∈ pieces noSpecial bytes, piece.escapesOnly = false := by
  rw [guardMarks_eq]
  exact driven_iff (fun _ => rfl) (fun _ _ _ taken => absurd taken (by simp [noSpecial])) bytes

theorem desugarMarks_iff {bytes : List UInt8} (ascii : IsAscii bytes) :
    desugarMarks bytes = (pieces rewriteAt bytes).flatMap Piece.marks ↔
      ∀ piece ∈ pieces rewriteAt bytes, piece.escapesOnly = false := by
  rw [desugarMarks_eq ascii]
  exact driven_iff rewriteAt_opener rewriteAt_forward bytes

theorem desugars_rendered {pattern : String} (ascii : IsAscii (Utf8.bytes pattern))
    (clear : ∀ piece ∈ pieces rewriteAt (Utf8.bytes pattern), piece.escapesOnly = false) :
    ∃ out, desugarPcre2Syntax pattern = .ok out ∧
      out.text = rendered false (pieces rewriteAt (Utf8.bytes pattern)) := by
  have writes := @writes_pieces (Utf8.bytes pattern) false 0 ascii (Utf8.bytes pattern).length
    (by omega) (by rwa [List.drop_zero])
  obtain ⟨final, ran, text⟩ := writes ⟨[], []⟩
  rw [List.drop_zero, List.nil_append] at text
  refine ⟨{ final.out with offsets := final.out.offsets ++ [(Utf8.bytes pattern).length] }, ?_, text⟩
  show (desugarRun (Utf8.bytes pattern) ⟨⟨[], []⟩, .default, false, 0⟩).map _ = _
  rw [ran]
  rfl

/-- With the largest limit the guard accepts every depth: its count wraps to zero first. -/
theorem checkGuards_unlimited {pattern : String} {limits : Limits}
    (fits : (Utf8.bytes pattern).length ≤ limits.maxPatternLength)
    (largest : limits.parensNestLimit = unlimited) : checkGuards pattern limits = .ok () := by
  obtain ⟨final, ran⟩ := @guardRun_unlimited (Utf8.bytes pattern) (Utf8.bytes pattern).length
    ⟨0, .default, 0⟩ (by simp)
  rw [checkGuards, if_neg (by omega), largest]
  show (guardRun (Utf8.bytes pattern) unlimited ⟨0, .default, 0⟩).map _ = _
  rw [ran]
  rfl

/-- An ASCII pattern is scanned as it reads exactly when no class of it holds escapes and
nothing else, and, under the largest limit, no group is nested past it. -/
theorem scansClasses_iff {special : List UInt8 → Option (List UInt8 × Nat)} {pattern : String}
    (limits : Limits) (ascii : IsAscii (Utf8.bytes pattern)) (reads : Recognizes special) :
    ScansClasses special pattern limits ↔
      (∀ piece ∈ pieces noSpecial (Utf8.bytes pattern), piece.escapesOnly = false) ∧
      (∀ piece ∈ pieces special (Utf8.bytes pattern), piece.escapesOnly = false) ∧
      (limits.parensNestLimit = unlimited →
        (Utf8.bytes pattern).length ≤ limits.maxPatternLength → ∀ offset,
          ¬ FirstDeep limits.parensNestLimit.toNat 0
            ((pieces noSpecial (Utf8.bytes pattern)).flatMap Piece.parens) offset) := by
  obtain rfl := reads.eq_rewriteAt
  constructor
  · rintro ⟨guarded, rewritten, rejects, _⟩
    refine ⟨(guardMarks_iff _).mp guarded, (desugarMarks_iff ascii).mp rewritten, ?_⟩
    intro largest fits offset deep
    have rejected := (rejects fits offset).mpr deep
    rw [checkGuards_unlimited fits largest] at rejected
    cases rejected
  · rintro ⟨guardClear, clear, shallow⟩
    constructor
    · exact (guardMarks_iff _).mpr guardClear
    · exact (desugarMarks_iff ascii).mpr clear
    · intro fits offset
      by_cases largest : limits.parensNestLimit = unlimited
      · have accepted := checkGuards_unlimited fits largest
        constructor
        · intro rejected
          rw [accepted] at rejected
          cases rejected
        · intro deep
          exact absurd deep (shallow largest fits offset)
      · exact checkGuards_iff fits largest guardClear offset
    · exact desugars_rendered ascii clear

theorem b_values : b '\\' = 92 ∧ b '[' = 91 ∧ b ']' = 93 ∧ b '^' = 94 ∧ b '(' = 40 ∧ b ')' = 41 := by
  decide

theorem scansClasses_lookahead : ScansClasses rewriteAt "(?=[a)])" ⟨100, 3⟩ := by
  have text : Utf8.bytes "(?=[a)])" = [40, 63, 61, 91, 97, 41, 93, 41] := by decide
  have plain : ∀ rest ∈ [[91, 97, 41, 93, 41], [41]], rewriteAt rest = none := by decide
  apply (scansClasses_iff ⟨100, 3⟩ _ recognizes_rewriteAt).mpr
  · refine ⟨?_, ?_, fun largest => absurd largest (by decide)⟩
    · rw [text]
      simp [pieces, noSpecial, b_values, classEnd, closing, caretLength, Piece.escapesOnly, escapes]
    · have opener : rewriteAt [40, 63, 61, 91, 97, 41, 93, 41] = some (plainGroup, 3) := by decide
      rw [text]
      simp [pieces, opener, plain, b_values, classEnd, closing, caretLength, Piece.escapesOnly, escapes]
  · rw [text, IsAscii]
    decide

/-- After `[\w]` the guard sees no group: it reads the rest of the pattern as the class. -/
theorem scansClasses_escapes : ¬ ScansClasses rewriteAt "[\\w]((((" ⟨100, 3⟩ := by
  have text : Utf8.bytes "[\\w]((((" = [91, 92, 119, 93, 40, 40, 40, 40] := by decide
  have read : (pieces noSpecial (Utf8.bytes "[\\w]((((")).flatMap Piece.parens =
      [none, none, none, none, some .opens, some .opens, some .opens, some .opens] := by
    rw [text]
    simp [pieces, noSpecial, b_values, classEnd, closing, caretLength, Piece.parens, Piece.marks]
  have accepted : checkGuards "[\\w]((((" ⟨100, 3⟩ = .ok () := by decide
  rintro ⟨_, _, rejects, _⟩
  have fits : (Utf8.bytes "[\\w]((((").length ≤ 100 := by
    rw [text]
    decide
  have rejected := (rejects fits 7).mpr (by
    rw [read, FirstDeep]
    refine ⟨⟨rfl, by decide⟩, ?_⟩
    intro earlier before deep
    have shallow : ∀ position < 7, ¬ 3 < depthAfter 0 (List.take (position + 1)
        [none, none, none, none, some .opens, some .opens, some .opens, some .opens]) := by decide
    exact shallow earlier before deep.2)
  rw [accepted] at rejected
  cases rejected

end FusionPipeline.Regex
