import FusionPipeline.Library.KeyedPairs

/-! A map that lists its keys in order: each operation keeps the order, and is known by its lookups. -/

namespace Pairs

variable {Key Value : Type} [DecidableEq Key] {key other : Key} {value : Value}
  {pairs : List (Key × Value)}

theorem find_erase : find key (erase key pairs) = none := by
  induction pairs with
  | nil => rfl
  | cons pair rest ih =>
      obtain ⟨first, held⟩ := pair
      rw [erase]
      split
      next => exact ih
      next differs => rw [find, if_neg differs, ih]

theorem mem_keys : key ∈ pairs.map Prod.fst ↔ (find key pairs).isSome := by
  constructor
  · intro member
    by_contra absent
    exact not_mem_keys (Option.not_isSome_iff_eq_none.mp absent) member
  · intro held
    obtain ⟨value, found⟩ := Option.isSome_iff_exists.mp held
    exact List.mem_map.mpr ⟨_, mem_of_find found, rfl⟩

section Order

variable [LT Key]

omit [DecidableEq Key] in
theorem ascending_keys : Ascending pairs ↔ (pairs.map Prod.fst).Pairwise (· < ·) := by
  rw [Ascending, List.pairwise_map]

theorem erase_ascending (ascending : Ascending pairs) (key : Key) : Ascending (erase key pairs) :=
  ascending.sublist (erase_sublist key pairs)

theorem modify_ascending (ascending : Ascending pairs) (change : Value → Value) (key : Key) :
    Ascending (modify change key pairs) := by
  rw [ascending_keys, keys_modify]
  exact ascending_keys.mp ascending

theorem put_sorted [DecidableLT Key] [IsTrans Key (· < ·)] [Std.Trichotomous (α := Key) (· < ·)]
    (ascending : Ascending pairs) (key : Key) (value : Value) : Ascending (put key value pairs) := by
  by_cases held : (find key pairs).isSome
  · rw [put_held held]
    exact modify_ascending ascending _ key
  · refine put_ascending value (fun pair member same => ?_) ascending
    exact held (mem_keys.mp (List.mem_map.mpr ⟨pair, member, same⟩))

theorem find_filter [Std.Irrefl (α := Key) (· < ·)] (ascending : Ascending pairs)
    (keeps : Value → Bool) (key : Key) :
    find key (pairs.filter fun pair => keeps pair.2) = (find key pairs).filter keeps := by
  induction pairs with
  | nil => rfl
  | cons pair rest ih =>
      obtain ⟨first, held⟩ := pair
      obtain ⟨above, later⟩ := List.pairwise_cons.mp ascending
      have inner := ih later
      by_cases same : first = key
      · subst same
        have fresh : ∀ pair ∈ rest.filter fun pair => keeps pair.2, pair.1 ≠ first := by
          intro pair member equal
          have greater := above pair (List.mem_of_mem_filter member)
          rw [equal] at greater
          exact Std.Irrefl.irrefl _ greater
        by_cases kept : keeps held
        · simp [kept, find, Option.filter_some]
        · simp [kept, find, find_eq_none fresh, Option.filter_some]
      · by_cases kept : keeps held <;> simp [kept, find, same, inner]

end Order

end Pairs

structure SortedMap (Key Value : Type) [LT Key] where
  pairs : List (Key × Value)
  ascending : Pairs.Ascending pairs

namespace SortedMap

variable {Key Value : Type} [LT Key] [DecidableEq Key] {key other : Key} {value : Value}
  {map : SortedMap Key Value}

omit [DecidableEq Key] in
def empty : SortedMap Key Value :=
  ⟨[], List.Pairwise.nil⟩

def get (key : Key) (map : SortedMap Key Value) : Option Value :=
  Pairs.find key map.pairs

omit [DecidableEq Key] in
def keys (map : SortedMap Key Value) : List Key :=
  map.pairs.map Prod.fst

def remove (key : Key) (map : SortedMap Key Value) : SortedMap Key Value :=
  ⟨Pairs.erase key map.pairs, Pairs.erase_ascending map.ascending key⟩

omit [DecidableEq Key] in
def retain (keeps : Value → Bool) (map : SortedMap Key Value) : SortedMap Key Value :=
  ⟨map.pairs.filter fun pair => keeps pair.2, map.ascending.sublist List.filter_sublist⟩

theorem get_remove : (map.remove key).get other = if other = key then none else map.get other := by
  split
  next same =>
    rw [same]
    exact Pairs.find_erase
  next differs => exact Pairs.find_erase_other differs

theorem get_retain [Std.Irrefl (α := Key) (· < ·)] (keeps : Value → Bool) :
    (map.retain keeps).get key = (map.get key).filter keeps :=
  Pairs.find_filter map.ascending keeps key

theorem mem_keys : key ∈ map.keys ↔ (map.get key).isSome :=
  Pairs.mem_keys

omit [DecidableEq Key] in
theorem keys_sorted : map.keys.Pairwise (· < ·) :=
  Pairs.ascending_keys.mp map.ascending

section Insert

variable [DecidableLT Key] [IsTrans Key (· < ·)] [Std.Trichotomous (α := Key) (· < ·)]

def insert (key : Key) (value : Value) (map : SortedMap Key Value) : SortedMap Key Value :=
  ⟨Pairs.put key value map.pairs, Pairs.put_sorted map.ascending key value⟩

theorem get_insert :
    (map.insert key value).get other = if other = key then some value else map.get other := by
  split
  next same =>
    rw [same]
    exact Pairs.find_put value
  next differs => exact Pairs.find_put_other value differs

end Insert

end SortedMap
