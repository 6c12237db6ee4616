import FusionPipeline.Library.Fallible
import FusionPipeline.Library.TextSlice
import FusionPipeline.RegexScan

/-!
The canary: a pattern run on adversarial inputs built from its own literals, under the limits of
the node.
-/

namespace FusionPipeline.Canary

open Regex (Panic parseWithFallback)
open Utf8 (size)

section Literals

inductive Hir where
  | empty
  | look
  | literal (bytes : List UInt8)
  | unicodeClass (ranges : List (Char × Char))
  | bytesClass (ranges : List (UInt8 × UInt8))
  | repetition (sub : Hir)
  | capture (sub : Hir)
  | concat (subs : List Hir)
  | alternation (subs : List Hir)

/-- What the generator knows about a pattern's literals: the distinct characters in first-seen
order, and the same characters in pattern order with repeats kept. -/
structure Literals where
  alphabet : List Char
  sequence : List Char
  deriving DecidableEq, Repr

def maxAlphabet : Nat := 16

def maxSequence : Nat := 64

def isAsciiGraphic (char : Char) : Bool :=
  0x21 ≤ char.toNat && char.toNat ≤ 0x7E

def representative (ranges : List (Char × Char)) : Option Char :=
  (ranges.findSome? fun range =>
    let low := if range.1 < ' ' then ' ' else range.1
    if low ≤ range.2 ∧ (isAsciiGraphic low ∨ low = ' ') then some low else none).or
      (ranges.head?.map Prod.fst)

variable (fromUtf8Lossy : List UInt8 → String)

mutual
def collectSequence : Hir → List Char
  | .literal bytes => (fromUtf8Lossy bytes).toList
  | .unicodeClass ranges => (representative ranges).toList
  | .bytesClass ranges => (ranges.head?.map fun range => Char.ofNat range.1.toNat).toList
  | .repetition sub => collectSequence sub
  | .capture sub => collectSequence sub
  | .concat subs => collectSequences subs
  | .alternation subs => collectSequences subs
  | .empty => []
  | .look => []

def collectSequences : List Hir → List Char
  | [] => []
  | sub :: rest => collectSequence sub ++ collectSequences rest
end

def rawLiteralSequence (isAlphanumeric : Char → Bool) : Bool → List Char → List Char
  | _, [] => []
  | true, _ :: rest => rawLiteralSequence isAlphanumeric false rest
  | false, char :: rest =>
      if char = '\\' then rawLiteralSequence isAlphanumeric true rest
      else if isAlphanumeric char then char :: rawLiteralSequence isAlphanumeric false rest
      else rawLiteralSequence isAlphanumeric false rest

def addNew (alphabet : List Char) (char : Char) : List Char :=
  if char ∈ alphabet then alphabet else alphabet ++ [char]

def Literals.of (collected : List Char) : Literals :=
  let sequence := if collected.isEmpty then ['a'] else collected
  ⟨(sequence.foldl addNew []).take maxAlphabet, sequence.take maxSequence⟩

def literals (isAlphanumeric : Char → Bool) (parse : List UInt8 → Option Hir)
    (pattern : String) : Except Panic Literals :=
  (parseWithFallback parse pattern).map fun parsed =>
    match parsed with
    | some (hir, _) => .of (collectSequence fromUtf8Lossy hir)
    | none => .of (rawLiteralSequence isAlphanumeric false pattern.toList)

end Literals

section Inputs

inductive InputShape where
  | repeated (char : Char)
  | repeatedThenPoison (char : Char)
  | literalsThenRepeatedThenPoison (char : Char)
  | cycled
  | cycledThenPoison
  deriving DecidableEq, Repr

def runOf (char : Char) (bytes : Nat) : List Char :=
  List.replicate (bytes / char.utf8Size) char

def withPoison (input : List Char) (poison : Char) : List Char :=
  input.dropLast ++ [poison]

def cycledFrom (alphabet : List Char) : Nat → Nat → Nat → List Char
  | 0, _, _ => []
  | rounds + 1, place, left =>
      match alphabet[place % alphabet.length]? with
      | none => []
      | some char =>
          if left < char.utf8Size then []
          else char :: cycledFrom alphabet rounds (place + 1) (left - char.utf8Size)

def cycle (alphabet : List Char) (bytes : Nat) : List Char :=
  cycledFrom alphabet bytes 0 bytes

/-- Every adversarial input of one size in bytes, in the order they are tried. -/
def inputsOf (bytes : Nat) (alphabet start : List Char) (poison : Char) :
    List (List Char × InputShape) :=
  (alphabet.flatMap fun char =>
    [(runOf char bytes, .repeated char),
      (withPoison (runOf char bytes) poison, .repeatedThenPoison char),
      (withPoison (start ++ runOf char (bytes - size start)) poison,
        .literalsThenRepeatedThenPoison char)]) ++
    if 1 < alphabet.length then
      [(cycle alphabet bytes, .cycled),
        (withPoison (cycle alphabet bytes) poison, .cycledThenPoison)]
    else []

end Inputs

section Run

structure CanaryConfig where
  workPerByte : UInt32
  sizes : List Nat
  deriving Repr

structure Probe where
  bytes : Nat
  input : List Char
  shape : InputShape
  anchored : Bool
  workLimit : Option Nat
  deriving DecidableEq, Repr

def dropRepeats : List Nat → List Nat
  | first :: second :: rest =>
      if first = second then dropRepeats (second :: rest)
      else first :: dropRepeats (second :: rest)
  | short => short

def clampedSizes (config : CanaryConfig) (inputBytes : Nat) : List Nat :=
  dropRepeats ((config.sizes.map (min · inputBytes)).mergeSort)

def poisonFor (alphabet : List Char) : Char :=
  (['!', '~', '\x01'].find? (· ∉ alphabet)).getD '\x02'

/-- No budget, rather than a budget of zero, where there is no input. -/
def workLimit (config : CanaryConfig) (bytes : Nat) : Option Nat :=
  let budget := min (config.workPerByte.toNat * bytes) 0xFFFFFFFF
  if budget = 0 then none else some budget

def probesOf (config : CanaryConfig) (known : Literals) (place bytes : Nat) : List Probe :=
  (inputsOf bytes known.alphabet known.sequence (poisonFor known.alphabet)).flatMap
    fun made =>
      (if place = 0 then [true, false] else [true]).map fun anchored =>
        ⟨bytes, made.1, made.2, anchored, workLimit config bytes⟩

def probes (config : CanaryConfig) (inputBytes : Nat) (known : Literals) : List Probe :=
  (clampedSizes config inputBytes).zipIdx.flatMap fun sized =>
    probesOf config known sized.2 sized.1

variable {Failure Trip : Type}

def firstTrip (probe : Probe → Except Failure (Option Trip)) :
    List Probe → Except Failure (Option Trip)
  | [] => .ok none
  | next :: later => do
      match ← probe next with
      | some trip => return some trip
      | none => firstTrip probe later

end Run

section Sizes

theorem size_replicate (char : Char) (count : Nat) :
    size (List.replicate count char) = count * char.utf8Size := by
  induction count with
  | zero => rw [List.replicate_zero, Utf8.size_nil, Nat.zero_mul]
  | succ count ih => rw [List.replicate_succ, Utf8.size_cons, ih, Nat.succ_mul, Nat.add_comm]

theorem size_runOf (char : Char) (bytes : Nat) : size (runOf char bytes) ≤ bytes := by
  rw [runOf, size_replicate]
  exact Nat.div_mul_le_self _ _

theorem size_dropLast_lt {text : List Char} (nonempty : text ≠ []) :
    size text.dropLast < size text := by
  obtain ⟨before, last, rfl⟩ := List.eq_nil_or_concat text |>.resolve_left nonempty
  rw [List.concat_eq_append, List.dropLast_concat, Utf8.size_append, Utf8.size_cons]
  have positive := last.utf8Size_pos
  omega

theorem size_withPoison {poison : Char} (narrow : poison.utf8Size = 1) (input : List Char) :
    size (withPoison input poison) = size input.dropLast + 1 := by
  rw [withPoison, Utf8.size_append, Utf8.size_cons, Utf8.size_nil, narrow]

theorem size_withPoison_le {poison : Char} (narrow : poison.utf8Size = 1) {input : List Char}
    {bytes : Nat} (within : size input ≤ bytes) (positive : 0 < bytes) :
    size (withPoison input poison) ≤ bytes := by
  rw [size_withPoison narrow]
  by_cases empty : input = []
  · subst empty
    exact positive
  · have shorter := size_dropLast_lt empty
    omega

theorem size_cycledFrom (alphabet : List Char) (rounds place left : Nat) :
    size (cycledFrom alphabet rounds place left) ≤ left := by
  induction rounds generalizing place left with
  | zero => exact Nat.zero_le _
  | succ rounds ih =>
      rw [cycledFrom]
      split
      · exact Nat.zero_le _
      next char _ =>
        split
        · exact Nat.zero_le _
        · have rest := ih (place + 1) (left - char.utf8Size)
          rw [Utf8.size_cons]
          omega

theorem poisonFor_narrow (alphabet : List Char) : (poisonFor alphabet).utf8Size = 1 := by
  rw [poisonFor]
  cases found : ['!', '~', '\x01'].find? (· ∉ alphabet) with
  | none => rfl
  | some poison =>
      have member := List.mem_of_find?_eq_some found
      simp only [List.mem_cons, List.not_mem_nil, or_false] at member
      rcases member with rfl | rfl | rfl <;> rfl

theorem inputsOf_within_iff {alphabet start : List Char} (some_ : alphabet ≠ [])
    (begins : start ≠ []) {poison : Char} (narrow : poison.utf8Size = 1) (bytes : Nat) :
    (∀ made ∈ inputsOf bytes alphabet start poison, size made.1 ≤ bytes) ↔
      size start.dropLast < bytes := by
  have shorter := size_dropLast_lt begins
  constructor
  · intro within
    obtain ⟨char, rest, rfl⟩ := List.exists_cons_of_ne_nil some_
    have bound := within (withPoison (start ++ runOf char (bytes - size start)) poison,
      .literalsThenRepeatedThenPoison char)
      (List.mem_append_left _ (List.mem_flatMap.mpr ⟨char, List.mem_cons_self, by simp⟩))
    by_cases room : size start < bytes
    · omega
    · have none_ : bytes - size start = 0 := by omega
      rw [none_, runOf, Nat.zero_div, List.replicate_zero, List.append_nil,
        size_withPoison narrow] at bound
      exact bound
  · intro room made member
    have positive : 0 < bytes := by omega
    rcases List.mem_append.mp member with perChar | cycled
    · obtain ⟨char, _, shapes⟩ := List.mem_flatMap.mp perChar
      simp only [List.mem_cons, List.not_mem_nil, or_false] at shapes
      rcases shapes with rfl | rfl | rfl
      · exact size_runOf char bytes
      · exact size_withPoison_le narrow (size_runOf char bytes) positive
      · by_cases fits : size start ≤ bytes
        · refine size_withPoison_le narrow ?_ positive
          have run := size_runOf char (bytes - size start)
          rw [Utf8.size_append]
          omega
        · have none_ : bytes - size start = 0 := by omega
          rw [none_, runOf, Nat.zero_div, List.replicate_zero, List.append_nil,
            size_withPoison narrow]
          exact room
    · split at cycled
      · have whole := size_cycledFrom alphabet bytes 0 bytes
        simp only [List.mem_cons, List.not_mem_nil, or_false] at cycled
        rcases cycled with rfl | rfl
        · exact whole
        · exact size_withPoison_le narrow whole positive
      · cases cycled

theorem foldl_addNew_ne_nil {alphabet : List Char} (some_ : alphabet ≠ []) (sequence : List Char) :
    sequence.foldl addNew alphabet ≠ [] := by
  induction sequence generalizing alphabet with
  | nil => exact some_
  | cons char sequence ih =>
      refine ih ?_
      rw [addNew]
      split
      · exact some_
      · simp

theorem literals_ne_nil {fromUtf8Lossy : List UInt8 → String} {isAlphanumeric : Char → Bool}
    {parse : List UInt8 → Option Hir} {pattern : String} {known : Literals}
    (found : literals fromUtf8Lossy isAlphanumeric parse pattern = .ok known) :
    known.alphabet ≠ [] ∧ known.sequence ≠ [] := by
  have each (collected : List Char) :
      (Literals.of collected).alphabet ≠ [] ∧ (Literals.of collected).sequence ≠ [] := by
    obtain ⟨first, rest, same⟩ : ∃ first rest,
        (if collected.isEmpty then ['a'] else collected) = first :: rest := by
      cases collected with
      | nil => exact ⟨'a', [], rfl⟩
      | cons first rest => exact ⟨first, rest, rfl⟩
    simp only [Literals.of, same]
    have alphabet : (first :: rest).foldl addNew [] ≠ [] :=
      foldl_addNew_ne_nil (List.cons_ne_nil first []) rest
    exact ⟨by simpa [maxAlphabet] using alphabet, by simp [maxSequence]⟩
  obtain ⟨parsed, _, rfl⟩ := Fallible.map_ok_iff.mp found
  split <;> exact each _

theorem mem_dropRepeats {item : Nat} (items : List Nat) :
    item ∈ dropRepeats items ↔ item ∈ items := by
  induction items with
  | nil => rfl
  | cons first items ih =>
      cases items with
      | nil => rfl
      | cons second rest =>
          rw [dropRepeats]
          split
          next same => rw [ih, @List.mem_cons _ first, same, List.mem_cons]; tauto
          next => rw [List.mem_cons, ih, @List.mem_cons _ first]

theorem mem_clampedSizes {config : CanaryConfig} {inputBytes bytes : Nat} :
    bytes ∈ clampedSizes config inputBytes ↔
      ∃ size ∈ config.sizes, min size inputBytes = bytes := by
  rw [clampedSizes, mem_dropRepeats, List.mem_mergeSort, List.mem_map]

theorem probes_within_iff {known : Literals} (some_ : known.alphabet ≠ [])
    (begins : known.sequence ≠ []) (config : CanaryConfig) (inputBytes : Nat) :
    (∀ probe ∈ probes config inputBytes known,
      size probe.input ≤ probe.bytes ∧ size probe.input ≤ inputBytes) ↔
    ∀ bytes ∈ config.sizes, size known.sequence.dropLast < min bytes inputBytes := by
  have narrow := poisonFor_narrow known.alphabet
  constructor
  · intro within bytes configured
    refine (inputsOf_within_iff some_ begins narrow _).mp fun made member => ?_
    have clamped : min bytes inputBytes ∈ clampedSizes config inputBytes :=
      mem_clampedSizes.mpr ⟨bytes, configured, rfl⟩
    obtain ⟨place, found⟩ := List.getElem?_of_mem clamped
    let probe : Probe := ⟨min bytes inputBytes, made.1, made.2, true,
      workLimit config (min bytes inputBytes)⟩
    have tried : probe ∈ probes config inputBytes known := by
      refine List.mem_flatMap.mpr ⟨_, List.mk_mem_zipIdx_iff_getElem?.mpr found, ?_⟩
      refine List.mem_flatMap.mpr ⟨made, member, List.mem_map.mpr ⟨true, ?_, rfl⟩⟩
      split <;> exact List.mem_cons_self
    exact (within probe tried).1
  · intro room probe member
    obtain ⟨sized, among, made⟩ := List.mem_flatMap.mp member
    obtain ⟨input, generated, shaped⟩ := List.mem_flatMap.mp made
    obtain ⟨anchored, _, rfl⟩ := List.mem_map.mp shaped
    obtain ⟨bytes, configured, same⟩ :=
      mem_clampedSizes.mp (List.fst_mem_of_mem_zipIdx among)
    have bound := (inputsOf_within_iff some_ begins narrow sized.1).mpr
      (same ▸ room bytes configured) input generated
    exact ⟨bound, bound.trans (same ▸ Nat.min_le_right _ _)⟩

/-- Exactly when no input the canary judges is longer than its size, which the pipeline accepts. -/
theorem canary_sizes {fromUtf8Lossy : List UInt8 → String} {isAlphanumeric : Char → Bool}
    {parse : List UInt8 → Option Hir} {pattern : String} {known : Literals}
    (found : literals fromUtf8Lossy isAlphanumeric parse pattern = .ok known)
    (config : CanaryConfig) (inputBytes : Nat) :
    (∀ probe ∈ probes config inputBytes known,
      size probe.input ≤ probe.bytes ∧ size probe.input ≤ inputBytes) ↔
    ∀ bytes ∈ config.sizes, size known.sequence.dropLast < min bytes inputBytes :=
  have known := literals_ne_nil found
  probes_within_iff known.1 known.2 config inputBytes

def parseLetters (bytes : List UInt8) : Option Hir :=
  some (.literal bytes)

def asciiText (bytes : List UInt8) : String :=
  String.ofList (bytes.map fun byte => Char.ofNat byte.toNat)

def errorLiterals : Literals :=
  ⟨['E', 'R', 'O'], ['E', 'R', 'R', 'O', 'R']⟩

theorem literals_error :
    literals asciiText Char.isAlphanum parseLetters "ERROR" = .ok errorLiterals := by
  decide

theorem canary_sizes_error :
    (∀ probe ∈ probes ⟨64, [1024]⟩ 4 errorLiterals,
      size probe.input ≤ probe.bytes ∧ size probe.input ≤ 4) ↔
    ∀ bytes ∈ [1024], size errorLiterals.sequence.dropLast < min bytes 4 :=
  canary_sizes literals_error ⟨64, [1024]⟩ 4

theorem canary_sizes_exceeded :
    ¬ ∀ (fromUtf8Lossy : List UInt8 → String) (isAlphanumeric : Char → Bool)
      (parse : List UInt8 → Option Hir) (pattern : String) (known : Literals)
      (config : CanaryConfig) (inputBytes : Nat),
      literals fromUtf8Lossy isAlphanumeric parse pattern = .ok known →
        ∀ probe ∈ probes config inputBytes known,
          size probe.input ≤ probe.bytes ∧ size probe.input ≤ inputBytes := by
  intro within
  have all := within asciiText Char.isAlphanum parseLetters "ERROR" errorLiterals ⟨64, [1024]⟩ 4
    literals_error
  have room := (probes_within_iff (by decide) (by decide) ⟨64, [1024]⟩ 4).mp all 1024 (by decide)
  exact absurd room (by decide)

end Sizes

end FusionPipeline.Canary
