import Mathlib.Order.Defs.Unbundled
import Mathlib.Data.List.Basic
import Mathlib.Data.List.Pairwise

/-! Pairs listed by key: lookups, changes in place, insertions in the order of the keys. -/

namespace Pairs

variable {Key Value : Type} [DecidableEq Key]

def find (key : Key) : List (Key × Value) → Option Value
  | [] => none
  | (other, value) :: rest => if other = key then some value else find key rest

def modify (change : Value → Value) (key : Key) : List (Key × Value) → List (Key × Value)
  | [] => []
  | (other, value) :: rest =>
      if other = key then (other, change value) :: rest else (other, value) :: modify change key rest

def erase (key : Key) : List (Key × Value) → List (Key × Value)
  | [] => []
  | (other, value) :: rest => if other = key then erase key rest else (other, value) :: erase key rest

variable {key other : Key} {value : Value} {pairs : List (Key × Value)}

theorem find_modify (change : Value → Value) :
    find key (modify change key pairs) = (find key pairs).map change := by
  induction pairs with
  | nil => rfl
  | cons pair rest ih =>
      obtain ⟨first, held⟩ := pair
      rw [modify, find]
      split
      next same => rw [find, if_pos same, Option.map_some]
      next differs => rw [find, if_neg differs, ih]

theorem find_modify_other (change : Value → Value) (differs : other ≠ key) :
    find other (modify change key pairs) = find other pairs := by
  induction pairs with
  | nil => rfl
  | cons pair rest ih =>
      obtain ⟨first, held⟩ := pair
      rw [modify, find]
      split
      next same =>
        have notOther : first ≠ other := by
          rintro rfl
          exact differs same
        rw [find, if_neg notOther, if_neg notOther]
      next => rw [find, ih]

theorem modify_modify (first second : Value → Value) :
    modify second key (modify first key pairs) = modify (second ∘ first) key pairs := by
  induction pairs with
  | nil => rfl
  | cons pair rest ih =>
      obtain ⟨here, held⟩ := pair
      rw [modify, modify]
      split
      next same => rw [modify, if_pos same, Function.comp_apply]
      next differs => rw [modify, if_neg differs, ih]

theorem modify_same (found : find key pairs = some value) :
    modify (fun _ => value) key pairs = pairs := by
  induction pairs with
  | nil => cases found
  | cons pair rest ih =>
      obtain ⟨first, held⟩ := pair
      rw [find] at found
      rw [modify]
      split at found
      next same =>
        obtain rfl := Option.some.inj found
        rw [if_pos same]
      next differs => rw [if_neg differs, ih found]

theorem modify_comm (first second : Value → Value) (differs : key ≠ other) :
    modify second other (modify first key pairs) = modify first key (modify second other pairs) := by
  induction pairs with
  | nil => rfl
  | cons pair rest ih =>
      obtain ⟨here, held⟩ := pair
      by_cases same : here = key
      · subst same
        simp only [modify, if_pos, if_neg differs]
      · by_cases same' : here = other
        · subst same'
          simp only [modify, if_pos, if_neg same]
        · simp only [modify, if_neg same, if_neg same', ih]

theorem find_erase_other (differs : other ≠ key) : find other (erase key pairs) = find other pairs := by
  induction pairs with
  | nil => rfl
  | cons pair rest ih =>
      obtain ⟨first, held⟩ := pair
      rw [erase]
      split
      next same =>
        have notOther : first ≠ other := by
          rintro rfl
          exact differs same
        rw [find, if_neg notOther, ih]
      next => rw [find, find, ih]

theorem erase_modify (change : Value → Value) (differs : other ≠ key) :
    erase key (modify change other pairs) = modify change other (erase key pairs) := by
  induction pairs with
  | nil => rfl
  | cons pair rest ih =>
      obtain ⟨first, held⟩ := pair
      by_cases same : first = other
      · subst same
        simp only [modify, erase, if_pos, if_neg differs]
      · by_cases gone : first = key
        · simp only [modify, erase, if_neg same, if_pos gone, ih]
        · simp only [modify, erase, if_neg same, if_neg gone, ih]

theorem erase_absent (absent : find key pairs = none) : erase key pairs = pairs := by
  induction pairs with
  | nil => rfl
  | cons pair rest ih =>
      obtain ⟨first, held⟩ := pair
      rw [find] at absent
      split at absent
      next => cases absent
      next differs => rw [erase, if_neg differs, ih absent]

theorem erase_sublist (key : Key) (pairs : List (Key × Value)) : (erase key pairs).Sublist pairs := by
  induction pairs with
  | nil => exact List.Sublist.refl _
  | cons pair rest ih =>
      rw [erase]
      split
      · exact ih.cons pair
      · exact ih.cons_cons pair

theorem mem_of_mem_erase {pair : Key × Value} (member : pair ∈ erase key pairs) : pair ∈ pairs :=
  (erase_sublist key pairs).mem member

theorem find_append (more : List (Key × Value)) :
    find key (pairs ++ more) = (find key pairs).or (find key more) := by
  induction pairs with
  | nil => rfl
  | cons pair rest ih =>
      obtain ⟨held, value⟩ := pair
      rw [List.cons_append, find, find]
      split
      next => rfl
      next => exact ih

theorem mem_of_find (found : find key pairs = some value) : (key, value) ∈ pairs := by
  induction pairs with
  | nil => cases found
  | cons pair rest ih =>
      obtain ⟨held, other⟩ := pair
      rw [find] at found
      split at found
      next same =>
        cases found
        rw [same]
        exact List.mem_cons_self
      next => exact List.mem_cons_of_mem _ (ih found)

theorem keys_modify (change : Value → Value) :
    (modify change key pairs).map Prod.fst = pairs.map Prod.fst := by
  induction pairs with
  | nil => rfl
  | cons pair rest ih =>
      obtain ⟨held, other⟩ := pair
      rw [modify]
      split
      next => rfl
      next => rw [List.map_cons, List.map_cons, ih]

theorem mem_modify {change : Value → Value} {pair : Key × Value}
    (member : pair ∈ modify change key pairs) : pair ∈ pairs ∨ ∃ held, pair = (key, change held) := by
  induction pairs with
  | nil => cases member
  | cons first rest ih =>
      obtain ⟨held, other⟩ := first
      rw [modify] at member
      split at member
      next same =>
        rcases List.mem_cons.mp member with rfl | later
        · exact Or.inr ⟨other, by rw [same]⟩
        · exact Or.inl (List.mem_cons_of_mem _ later)
      next =>
        rcases List.mem_cons.mp member with rfl | later
        · exact Or.inl List.mem_cons_self
        · rcases ih later with early | changed
          · exact Or.inl (List.mem_cons_of_mem _ early)
          · exact Or.inr changed

theorem not_mem_keys (absent : find key pairs = none) : key ∉ pairs.map Prod.fst := by
  induction pairs with
  | nil => exact List.not_mem_nil
  | cons pair rest ih =>
      obtain ⟨held, value⟩ := pair
      rw [find] at absent
      split at absent
      next => cases absent
      next differs =>
        rw [List.map_cons, List.mem_cons, not_or]
        exact ⟨fun same => differs same.symm, ih absent⟩

theorem find_eq_none (fresh : ∀ pair ∈ pairs, pair.1 ≠ key) : find key pairs = none := by
  induction pairs with
  | nil => rfl
  | cons pair rest ih =>
      rw [find, if_neg (fresh pair List.mem_cons_self)]
      exact ih fun other member => fresh other (List.mem_cons_of_mem _ member)

section Order

variable [LT Key] [DecidableLT Key]

def insert (key : Key) (value : Value) : List (Key × Value) → List (Key × Value)
  | [] => [(key, value)]
  | (other, more) :: rest =>
      if key < other then (key, value) :: (other, more) :: rest
      else (other, more) :: insert key value rest

def put (key : Key) (value : Value) (pairs : List (Key × Value)) : List (Key × Value) :=
  if (find key pairs).isSome then modify (fun _ => value) key pairs else insert key value pairs

omit [DecidableEq Key] in
theorem insert_perm (value : Value) : (insert key value pairs).Perm ((key, value) :: pairs) := by
  induction pairs with
  | nil => exact List.Perm.refl _
  | cons pair rest ih =>
      rw [insert]
      split
      · exact List.Perm.refl _
      · exact (ih.cons pair).trans (List.Perm.swap _ _ _)

def Ascending (pairs : List (Key × Value)) : Prop :=
  pairs.Pairwise fun first second => first.1 < second.1

theorem put_fresh (value : Value) (fresh : ∀ pair ∈ pairs, pair.1 ≠ key) :
    put key value pairs = insert key value pairs := by
  rw [put, find_eq_none fresh, Option.isSome_none, if_neg Bool.false_ne_true]

theorem put_perm (value : Value) (fresh : ∀ pair ∈ pairs, pair.1 ≠ key) :
    (put key value pairs).Perm ((key, value) :: pairs) := by
  rw [put_fresh value fresh]
  exact insert_perm value

theorem find_insert (absent : find key pairs = none) (value : Value) :
    find key (insert key value pairs) = some value := by
  induction pairs with
  | nil => rw [insert, find, if_pos rfl]
  | cons pair rest ih =>
      obtain ⟨first, held⟩ := pair
      have differs : first ≠ key := by
        rintro rfl
        rw [find, if_pos rfl] at absent
        cases absent
      rw [find, if_neg differs] at absent
      rw [insert]
      split
      next => rw [find, if_pos rfl]
      next => rw [find, if_neg differs, ih absent]

theorem find_insert_other (value : Value) (differs : other ≠ key) :
    find other (insert key value pairs) = find other pairs := by
  induction pairs with
  | nil => exact if_neg (Ne.symm differs)
  | cons pair rest ih =>
      obtain ⟨first, held⟩ := pair
      rw [insert]
      split
      next => rw [find, if_neg (Ne.symm differs)]
      next => rw [find, find, ih]

theorem modify_insert (absent : find key pairs = none) (value : Value) (change : Value → Value) :
    modify change key (insert key value pairs) = insert key (change value) pairs := by
  induction pairs with
  | nil => rw [insert, modify, if_pos rfl, insert]
  | cons pair rest ih =>
      obtain ⟨first, held⟩ := pair
      have differs : first ≠ key := by
        rintro rfl
        rw [find, if_pos rfl] at absent
        cases absent
      rw [find, if_neg differs] at absent
      rw [insert, insert]
      split
      next => rw [modify, if_pos rfl]
      next => rw [modify, if_neg differs, ih absent]

theorem insert_modify (change : Value → Value) (differs : key ≠ other) (value : Value) :
    modify change other (insert key value pairs) = insert key value (modify change other pairs) := by
  induction pairs with
  | nil => exact if_neg differs
  | cons pair rest ih =>
      obtain ⟨first, held⟩ := pair
      by_cases before : key < first
      · by_cases same : first = other
        · simp only [insert, modify, if_pos before, if_neg differs, if_pos same]
        · simp only [insert, modify, if_pos before, if_neg differs, if_neg same]
      · by_cases same : first = other
        · simp only [insert, modify, if_neg before, if_pos same]
        · simp only [insert, modify, if_neg before, if_neg same, ih]

theorem find_put (value : Value) : find key (put key value pairs) = some value := by
  rw [put]
  split
  next held =>
    obtain ⟨before, found⟩ := Option.isSome_iff_exists.mp held
    rw [find_modify, found, Option.map_some]
  next absent => exact find_insert (Option.not_isSome_iff_eq_none.mp absent) value

theorem find_put_other (value : Value) (differs : other ≠ key) :
    find other (put key value pairs) = find other pairs := by
  rw [put]
  split
  next => exact find_modify_other _ differs
  next => exact find_insert_other value differs

theorem keys_put (value : Value) :
    ((put key value pairs).map Prod.fst).Perm
      (if (find key pairs).isSome then pairs.map Prod.fst else key :: pairs.map Prod.fst) := by
  rw [put]
  split
  next => rw [keys_modify]
  next => exact (insert_perm value).map Prod.fst

theorem mem_put {pair : Key × Value} (member : pair ∈ put key value pairs) :
    pair = (key, value) ∨ pair ∈ pairs := by
  rw [put] at member
  split at member
  next =>
    rcases mem_modify member with early | ⟨_, changed⟩
    · exact Or.inr early
    · exact Or.inl changed
  next => exact List.mem_cons.mp ((insert_perm value).mem_iff.mp member)

theorem put_held (held : (find key pairs).isSome) (value : Value) :
    put key value pairs = modify (fun _ => value) key pairs := by
  rw [put, if_pos held]

theorem put_put (first second : Value) :
    put key second (put key first pairs) = put key second pairs := by
  have held : (find key (put key first pairs)).isSome := by rw [find_put, Option.isSome_some]
  rw [put_held held, put, put]
  split
  next => rw [modify_modify]; rfl
  next absent => rw [modify_insert (Option.not_isSome_iff_eq_none.mp absent)]

theorem put_same (found : find key pairs = some value) : put key value pairs = pairs := by
  rw [put, found, Option.isSome_some, if_pos rfl, modify_same found]

theorem modify_put (change : Value → Value) (differs : key ≠ other) (value : Value) :
    modify change other (put key value pairs) = put key value (modify change other pairs) := by
  rw [put, put, find_modify_other change differs]
  split
  next => exact modify_comm _ _ differs
  next => exact insert_modify change differs value

omit [DecidableEq Key] in
theorem insert_below (below : ∀ pair ∈ pairs, key < pair.1) (value : Value) :
    insert key value pairs = (key, value) :: pairs := by
  cases pairs with
  | nil => rfl
  | cons pair rest => rw [insert, if_pos (below pair List.mem_cons_self)]

variable [IsTrans Key (· < ·)]

theorem erase_insert (ascending : Ascending pairs) (differs : key ≠ other) (value : Value) :
    erase other (insert key value pairs) = insert key value (erase other pairs) := by
  induction pairs with
  | nil => exact if_neg differs
  | cons pair rest ih =>
      obtain ⟨first, held⟩ := pair
      obtain ⟨above, later⟩ := List.pairwise_cons.mp ascending
      have inner := ih later
      by_cases before : key < first
      · have below : ∀ pair ∈ erase other ((first, held) :: rest), key < pair.1 := by
          intro pair member
          rcases List.mem_cons.mp (mem_of_mem_erase member) with rfl | inRest
          · exact before
          · exact IsTrans.trans _ _ _ before (above pair inRest)
        rw [insert_below below, insert, if_pos before, erase, if_neg differs]
      · by_cases gone : first = other
        · simp only [insert, erase, if_neg before, if_pos gone, inner]
        · simp only [insert, erase, if_neg before, if_neg gone, inner]

theorem erase_put (ascending : Ascending pairs) (differs : key ≠ other) (value : Value) :
    erase other (put key value pairs) = put key value (erase other pairs) := by
  rw [put, put, find_erase_other differs]
  split
  next => exact erase_modify _ differs
  next => exact erase_insert ascending differs value

theorem put_ascending [Std.Trichotomous (α := Key) (· < ·)] (value : Value)
    (fresh : ∀ pair ∈ pairs, pair.1 ≠ key) (ascending : Ascending pairs) :
    Ascending (put key value pairs) := by
  rw [put_fresh value fresh]
  induction pairs with
  | nil => exact List.pairwise_singleton _ _
  | cons pair rest ih =>
      obtain ⟨above, later⟩ := List.pairwise_cons.mp ascending
      rw [insert]
      split
      next before =>
        refine List.pairwise_cons.mpr ⟨?_, ascending⟩
        intro other member
        rcases List.mem_cons.mp member with rfl | inRest
        · exact before
        · exact IsTrans.trans _ _ _ before (above other inRest)
      next behind =>
        have sorted := ih (fun other member => fresh other (List.mem_cons_of_mem _ member)) later
        refine List.pairwise_cons.mpr ⟨fun other member => ?_, sorted⟩
        rcases List.mem_cons.mp ((insert_perm value).mem_iff.mp member) with rfl | inRest
        · by_contra not
          exact fresh pair List.mem_cons_self (Std.Trichotomous.trichotomous _ _ not behind)
        · exact above other inRest

omit [DecidableEq Key] [DecidableLT Key] [IsTrans Key (· < ·)] in
/-- The order of the keys leaves one way to list the pairs. -/
theorem ascending_unique [Std.Asymm (α := Key) (· < ·)] {others : List (Key × Value)}
    (perm : pairs.Perm others) (ascending : Ascending pairs) (ascendingToo : Ascending others) :
    pairs = others := by
  refine perm.eq_of_pairwise ?_ ascending ascendingToo
  intro first second _ _ before after
  exact absurd after (Std.Asymm.asymm _ _ before)

end Order

end Pairs
