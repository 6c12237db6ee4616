import FusionPipeline.Library.Pieces

/-! Following a run while it happens: lines out of bytes that arrive in arbitrary pieces. -/

namespace FusionPipeline.Harness

section Position

variable {Item : Type} {good : Item → Bool} {items : List Item}

def rposition (good : Item → Bool) : List Item → Option Nat
  | [] => none
  | item :: rest =>
      match rposition good rest with
      | some i => some (i + 1)
      | none => if good item then some 0 else none

theorem rposition_none (absent : rposition good items = none) :
    ∀ item ∈ items, good item = false := by
  induction items with
  | nil => simp
  | cons item rest ih =>
      rw [rposition] at absent
      split at absent
      next => cases absent
      next later =>
        split at absent
        next => cases absent
        next bad =>
          intro other member
          rcases List.mem_cons.mp member with rfl | early
          · simpa using bad
          · exact ih later other early

theorem rposition_some {last : Nat} (found : rposition good items = some last) :
    ∃ front item, items.take (last + 1) = front ++ [item] ∧ good item = true ∧
      ∀ other ∈ items.drop (last + 1), good other = false := by
  induction items generalizing last with
  | nil => cases found
  | cons item rest ih =>
      rw [rposition] at found
      split at found
      next i later =>
        cases found
        obtain ⟨front, ended, taken, isGood, after⟩ := ih later
        refine ⟨item :: front, ended, ?_, isGood, ?_⟩
        · rw [List.take_succ_cons, taken, List.cons_append]
        · rw [List.drop_succ_cons]
          exact after
      next absent =>
        split at found
        next isGood =>
          cases found
          exact ⟨[], item, rfl, isGood, rposition_none absent⟩
        next => cases found

end Position

def newline : UInt8 :=
  10

def isNewline (byte : UInt8) : Bool :=
  byte == newline

/-- Complete lines out of bytes that arrive in arbitrary pieces: the bytes of no whole line are held
back. -/
structure LineBuffer where
  heldBack : List UInt8
  unended : ∀ byte ∈ heldBack, isNewline byte = false

theorem LineBuffer.ext_heldBack {buffer other : LineBuffer}
    (same : buffer.heldBack = other.heldBack) : buffer = other := by
  cases buffer
  cases other
  cases same
  rfl

namespace LineBuffer

def default : LineBuffer :=
  ⟨[], fun _ member => absurd member List.not_mem_nil⟩

variable (fromUtf8Lossy : List UInt8 → String)

/-- The lines the bytes complete, without their newline; empty lines are skipped. -/
def push (buffer : LineBuffer) (bytes : List UInt8) : List String × LineBuffer :=
  match found : rposition isNewline (buffer.heldBack ++ bytes) with
  | none => ([], ⟨buffer.heldBack ++ bytes, rposition_none found⟩)
  | some last =>
      let complete := (buffer.heldBack ++ bytes).take (last + 1)
      let rest := (buffer.heldBack ++ bytes).drop (last + 1)
      (((complete.splitOnP isNewline).filter fun line => !line.isEmpty).map fromUtf8Lossy,
        ⟨rest, (rposition_some found).choose_spec.choose_spec.2.2⟩)

def pushAll (buffer : LineBuffer) : List (List UInt8) → List String × LineBuffer
  | [] => ([], buffer)
  | piece :: rest =>
      let (lines, buffer) := buffer.push fromUtf8Lossy piece
      let (more, buffer) := pushAll buffer rest
      (lines ++ more, buffer)

def texts (pieces : List (List UInt8)) : List String :=
  (pieces.filter fun line => !line.isEmpty).map fromUtf8Lossy

variable {fromUtf8Lossy}

theorem texts_append (pieces more : List (List UInt8)) :
    texts fromUtf8Lossy (pieces ++ more) = texts fromUtf8Lossy pieces ++ texts fromUtf8Lossy more := by
  rw [texts, List.filter_append, List.map_append, texts, texts]

theorem push_feeds (buffer : LineBuffer) (bytes : List UInt8) :
    (buffer.push fromUtf8Lossy bytes).1 =
        texts fromUtf8Lossy (Pieces.feed isNewline ([], buffer.heldBack) bytes).1 ∧
      (buffer.push fromUtf8Lossy bytes).2.heldBack =
        (Pieces.feed isNewline ([], buffer.heldBack) bytes).2 := by
  have before : Pieces.feed isNewline ([], []) buffer.heldBack = ([], buffer.heldBack) := by
    rw [Pieces.feed_open buffer.unended, List.nil_append]
  rw [← before, ← Pieces.feed_append]
  unfold push
  split
  next found =>
    rw [Pieces.feed_open (rposition_none found)]
    exact ⟨rfl, rfl⟩
  next last found =>
    obtain ⟨front, ended, taken, isEnd, after⟩ := rposition_some found
    obtain ⟨pieces, fed, split_⟩ := @Pieces.feed_ended _ isNewline front ended isEnd
    have whole : Pieces.feed isNewline ([], []) (buffer.heldBack ++ bytes) =
        (pieces, (buffer.heldBack ++ bytes).drop (last + 1)) := by
      calc Pieces.feed isNewline ([], []) (buffer.heldBack ++ bytes)
        _ = Pieces.feed isNewline ([], [])
              (front ++ [ended] ++ (buffer.heldBack ++ bytes).drop (last + 1)) := by
            rw [← taken, List.take_append_drop]
        _ = Pieces.feed isNewline (pieces, []) ((buffer.heldBack ++ bytes).drop (last + 1)) := by
            rw [Pieces.feed_append, fed]
        _ = (pieces, (buffer.heldBack ++ bytes).drop (last + 1)) := by
            rw [Pieces.feed_open after, List.nil_append]
    rw [whole]
    refine ⟨?_, rfl⟩
    simp only [taken, split_]
    change texts fromUtf8Lossy (pieces ++ [[]]) = _
    rw [texts_append]
    exact List.append_nil _

/-- However a stream is cut, its pieces pushed one by one give the lines, and leave the bytes, that
it gives pushed whole. -/
theorem pushAll_flatten (fromUtf8Lossy : List UInt8 → String) (buffer : LineBuffer)
    (pieces : List (List UInt8)) :
    buffer.pushAll fromUtf8Lossy pieces = buffer.push fromUtf8Lossy pieces.flatten := by
  induction pieces generalizing buffer with
  | nil =>
      have fed := @push_feeds fromUtf8Lossy buffer []
      exact Prod.ext fed.1.symm (ext_heldBack fed.2.symm)
  | cons piece rest ih =>
      obtain ⟨lines, held⟩ := @push_feeds fromUtf8Lossy buffer piece
      obtain ⟨later, left⟩ :=
        @push_feeds fromUtf8Lossy (buffer.push fromUtf8Lossy piece).2 rest.flatten
      obtain ⟨all, final⟩ := @push_feeds fromUtf8Lossy buffer (piece ++ rest.flatten)
      rw [Pieces.feed_append] at all final
      have resumed : Pieces.feed isNewline (Pieces.feed isNewline ([], buffer.heldBack) piece)
          rest.flatten =
            ((Pieces.feed isNewline ([], buffer.heldBack) piece).1 ++
              (Pieces.feed isNewline ([], (Pieces.feed isNewline ([], buffer.heldBack) piece).2)
                rest.flatten).1,
              (Pieces.feed isNewline ([], (Pieces.feed isNewline ([], buffer.heldBack) piece).2)
                rest.flatten).2) := Pieces.feed_done
      rw [resumed] at all final
      rw [held] at later left
      simp only [pushAll, ih, List.flatten_cons]
      apply Prod.ext
      · simp only [lines, later, all, texts_append]
      · apply ext_heldBack
        simp only [left, final]

end LineBuffer

end FusionPipeline.Harness
