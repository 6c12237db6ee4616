/-! A stream cut into pieces by the symbols that end one: the pieces done, and the one still open. -/

namespace Pieces

variable {Symbol : Type} {ends : Symbol → Bool} {symbols more : List Symbol}
  {done : List (List Symbol)} {held : List Symbol}

def step (ends : Symbol → Bool) (state : List (List Symbol) × List Symbol) (symbol : Symbol) :
    List (List Symbol) × List Symbol :=
  if ends symbol then (state.1 ++ [state.2], []) else (state.1, state.2 ++ [symbol])

def feed (ends : Symbol → Bool) (state : List (List Symbol) × List Symbol) (symbols : List Symbol) :
    List (List Symbol) × List Symbol :=
  symbols.foldl (step ends) state

theorem feed_cons (state : List (List Symbol) × List Symbol) (symbol : Symbol) :
    feed ends state (symbol :: symbols) = feed ends (step ends state symbol) symbols := by
  rw [feed, List.foldl_cons, feed]

theorem feed_append (state : List (List Symbol) × List Symbol) :
    feed ends state (symbols ++ more) = feed ends (feed ends state symbols) more :=
  List.foldl_append

theorem feed_done :
    feed ends (done, held) symbols =
      (done ++ (feed ends ([], held) symbols).1, (feed ends ([], held) symbols).2) := by
  induction symbols generalizing done held with
  | nil => simp [feed]
  | cons symbol rest ih =>
      rw [feed_cons, feed_cons, step, step]
      split
      next => rw [ih, @ih ([] ++ [held]), List.nil_append, List.append_assoc]
      next => rw [ih]

theorem feed_open (within : ∀ symbol ∈ symbols, ends symbol = false) :
    feed ends (done, held) symbols = (done, held ++ symbols) := by
  induction symbols generalizing held with
  | nil => rw [List.append_nil]; rfl
  | cons symbol rest ih =>
      have joins : ¬ ends symbol = true := by simp [within symbol List.mem_cons_self]
      rw [feed_cons, step, if_neg joins, ih fun other member => within other (List.mem_cons_of_mem _ member),
        List.append_assoc, List.singleton_append]

theorem feed_split :
    (feed ends ([], held) symbols).1 ++ [(feed ends ([], held) symbols).2] =
      symbols.splitOnPPrepend ends held.reverse := by
  induction symbols generalizing held with
  | nil => simp [feed]
  | cons symbol rest ih =>
      rw [feed_cons, step]
      split
      next ended =>
        rw [List.splitOnPPrepend_cons_pos ended, feed_done, List.append_assoc, ih, List.reverse_reverse]
        rfl
      next joins =>
        rw [List.splitOnPPrepend_cons_neg (by simpa using joins), ih, List.reverse_append]
        rfl

theorem feed_ended {last : Symbol} (ended : ends last = true) :
    ∃ pieces, feed ends ([], []) (symbols ++ [last]) = (pieces, []) ∧
      (symbols ++ [last]).splitOnP ends = pieces ++ [[]] := by
  refine ⟨(feed ends ([], []) symbols).1 ++ [(feed ends ([], []) symbols).2], ?_, ?_⟩
  · rw [feed_append]
    simp only [feed, List.foldl_cons, List.foldl_nil, step, ended, ↓reduceIte]
  · rw [feed_split, List.splitOnP_append_cons symbols [] ended, List.splitOnP_nil]
    rfl

end Pieces
