import Mathlib.Data.List.Dedup
import FusionPipeline.Library.KeyedPairs

/-! Counters by key: the keys seen, with how often. -/

namespace Tally

variable {Key : Type} [DecidableEq Key]

def bump (key : Key) : List (Key × Nat) → List (Key × Nat)
  | [] => [(key, 1)]
  | (other, count) :: rest =>
      if other = key then (other, count + 1) :: rest else (other, count) :: bump key rest

variable {key other : Key} {tally : List (Key × Nat)} {seen more : List Key}

theorem find_bump :
    Pairs.find other (bump key tally) =
      if other = key then some ((Pairs.find key tally).getD 0 + 1) else Pairs.find other tally := by
  induction tally with
  | nil =>
      simp only [bump, Pairs.find, Option.getD_none, Nat.zero_add, @eq_comm _ key]
  | cons pair rest ih =>
      obtain ⟨held, count⟩ := pair
      rw [bump]
      by_cases here : held = key
      · rw [if_pos here]
        subst here
        simp only [Pairs.find]
        by_cases same : held = other
        · simp [same]
        · simp [same, Ne.symm same]
      · rw [if_neg here]
        simp only [Pairs.find, ih, if_neg here]
        by_cases same : held = other
        · subst same
          rw [if_pos rfl, if_neg here]
          simp
        · rw [if_neg same, if_neg same]

theorem keys_bump :
    (bump key tally).map Prod.fst =
      if key ∈ tally.map Prod.fst then tally.map Prod.fst else tally.map Prod.fst ++ [key] := by
  induction tally with
  | nil => rfl
  | cons pair rest ih =>
      obtain ⟨held, count⟩ := pair
      rw [bump]
      by_cases here : held = key
      · simp [here]
      · rw [if_neg here, List.map_cons, ih, List.map_cons]
        have differs : ¬ key = held := fun same => here same.symm
        simp only [List.mem_cons, differs, false_or]
        split
        · rfl
        · rfl

structure Counts (tally : List (Key × Nat)) (seen : List Key) : Prop where
  distinct : (tally.map Prod.fst).Nodup
  find : ∀ key, Pairs.find key tally = if key ∈ seen then some (seen.count key) else none

theorem Counts.nil : Counts ([] : List (Key × Nat)) [] :=
  ⟨List.nodup_nil, fun _ => by simp [Pairs.find]⟩

theorem Counts.isSome_iff (counts : Counts tally seen) :
    (Pairs.find key tally).isSome = true ↔ key ∈ seen := by
  rw [counts.find]
  split
  next member => simp [member]
  next absent => simp [absent]

theorem Counts.getD (counts : Counts tally seen) :
    (Pairs.find key tally).getD 0 = seen.count key := by
  rw [counts.find]
  split
  next => rfl
  next absent => exact (List.count_eq_zero.mpr absent).symm

theorem Counts.mem_keys (counts : Counts tally seen) : key ∈ tally.map Prod.fst ↔ key ∈ seen := by
  rw [← counts.isSome_iff]
  constructor
  · intro member
    by_contra absent
    have missing : Pairs.find key tally = none := by simpa using absent
    exact Pairs.not_mem_keys missing member
  · intro held
    by_contra absent
    have missing : Pairs.find key tally = none := by
      apply Pairs.find_eq_none
      intro pair member same
      exact absent (List.mem_map.mpr ⟨pair, member, same⟩)
    simp [missing] at held

theorem Counts.bump (counts : Counts tally seen) (key : Key) :
    Counts (bump key tally) (seen ++ [key]) := by
  constructor
  · rw [keys_bump]
    split
    next => exact counts.distinct
    next absent =>
      rw [← List.concat_eq_append]
      exact List.Nodup.concat absent counts.distinct
  · intro other
    rw [find_bump, counts.getD, counts.find]
    by_cases same : other = key
    · subst same
      simp
    · have differs : ¬ key = other := fun reversed => same reversed.symm
      simp [same, differs, List.count_append]

theorem Counts.one_lt_bump (counts : Counts tally seen) :
    1 < (Pairs.find key (Tally.bump key tally)).getD 0 ↔ key ∈ seen := by
  rw [(counts.bump key).getD, List.count_append, List.count_singleton_self, ← List.count_pos_iff]
  omega

theorem Counts.perm (counts : Counts tally seen) (perm : seen.Perm more) : Counts tally more := by
  refine ⟨counts.distinct, ?_⟩
  intro key
  simp only [counts.find, perm.count_eq, perm.mem_iff]

/-- Tallies of the same keys in another order agree. -/
theorem Counts.agree {others : List (Key × Nat)} (counts : Counts tally seen)
    (same : Counts others more) (perm : seen.Perm more) (key : Key) :
    Pairs.find key tally = Pairs.find key others := by
  rw [(counts.perm perm).find, same.find]

theorem Counts.length (counts : Counts tally seen) : tally.length = seen.dedup.length := by
  have same : (tally.map Prod.fst).Perm seen.dedup := by
    rw [List.perm_ext_iff_of_nodup counts.distinct (List.nodup_dedup seen)]
    intro key
    rw [counts.mem_keys, List.mem_dedup]
  rw [← same.length_eq, List.length_map]

end Tally
