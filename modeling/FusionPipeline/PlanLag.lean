import FusionPipeline.Library.Draining
import FusionPipeline.Plan

/-! A plan's duplicates: each repeats an original of its own, and follows it within the lag. -/

namespace FusionPipeline.Harness

open Draining (Soon)

instance : Std.Trichotomous (α := Due) (· < ·) where
  trichotomous left right leftNot rightNot := by
    change ¬ left.before right = true at leftNot
    change ¬ right.before left = true at rightNot
    simp only [Due.before, Bool.or_eq_true, Bool.and_eq_true, decide_eq_true_eq, beq_iff_eq] at leftNot rightNot
    cases left with
    | mk slot original =>
        cases right with
        | mk otherSlot otherOriginal =>
            simp only [Due.mk.injEq]
            simp only at leftNot rightNot
            omega

instance : IsTrans Due (· < ·) where
  trans left middle right before after := by
    change left.before middle = true at before
    change middle.before right = true at after
    change left.before right = true
    simp only [Due.before, Bool.or_eq_true, Bool.and_eq_true, decide_eq_true_eq, beq_iff_eq] at before after ⊢
    omega

theorem Due.slot_le {left right : Due} (before : left < right) : left.slot ≤ right.slot := by
  change left.before right = true at before
  simp only [Due.before, Bool.or_eq_true, Bool.and_eq_true, decide_eq_true_eq, beq_iff_eq] at before
  omega

structure Repeats (messages : List Planned) (half later earlier : Nat) : Prop where
  after : earlier < later
  within : later < earlier + 2 * half
  copies : ∃ duplicate original, messages[later]? = some duplicate ∧
    messages[earlier]? = some original ∧ original.dupOf = none ∧
    duplicate.dupOf = some original.id ∧ duplicate.set = original.set ∧
    duplicate.line = original.line ∧ duplicate.cycle = original.cycle

def IsDuplicate (messages : List Planned) (i : Nat) : Prop :=
  ∃ message, messages[i]? = some message ∧ message.dupOf ≠ none

section Appending

variable {messages : List Planned} {message : Planned} {i : Nat}

theorem getElem?_push (found : Planned) :
    (messages ++ [message])[i]? = some found ↔
      messages[i]? = some found ∨ i = messages.length ∧ message = found := by
  rcases Nat.lt_trichotomy i messages.length with inside | rfl | beyond
  · rw [List.getElem?_append_left inside]
    constructor
    · exact Or.inl
    · rintro (early | ⟨same, _⟩)
      · exact early
      · omega
  · simp
  · have none_ : messages[i]? = none := List.getElem?_eq_none (by omega)
    rw [none_, List.getElem?_eq_none (by rw [List.length_append, List.length_singleton]; omega)]
    constructor
    · intro impossible
      cases impossible
    · rintro (impossible | ⟨same, _⟩)
      · cases impossible
      · omega

theorem Repeats.push {half later earlier : Nat} (repeats : Repeats messages half later earlier)
    (message : Planned) : Repeats (messages ++ [message]) half later earlier := by
  obtain ⟨duplicate, original, laterIs, earlierIs, rest⟩ := repeats.copies
  exact ⟨repeats.after, repeats.within, duplicate, original, (getElem?_push _).mpr (Or.inl laterIs),
    (getElem?_push _).mpr (Or.inl earlierIs), rest⟩

theorem isDuplicate_push :
    IsDuplicate (messages ++ [message]) i ↔
      IsDuplicate messages i ∨ i = messages.length ∧ message.dupOf ≠ none := by
  constructor
  · rintro ⟨found, listed, duplicate⟩
    rcases (getElem?_push found).mp listed with early | ⟨here, rfl⟩
    · exact Or.inl ⟨found, early, duplicate⟩
    · exact Or.inr ⟨here, duplicate⟩
  · rintro (⟨found, early, duplicate⟩ | ⟨here, duplicate⟩)
    · exact ⟨found, (getElem?_push found).mpr (Or.inl early), duplicate⟩
    · exact ⟨message, (getElem?_push message).mpr (Or.inr ⟨here, rfl⟩), duplicate⟩

theorem IsDuplicate.inside (duplicate : IsDuplicate messages i) : i < messages.length := by
  obtain ⟨message, listed, _⟩ := duplicate
  exact (List.getElem?_eq_some_iff.mp listed).1

end Appending

structure Waiting (messages : List Planned) (half : Nat) (origin : Nat → Nat)
    (entry : Due × Planned) : Prop where
  held : messages[entry.1.original]? = some entry.2
  original : entry.2.dupOf = none
  soon : entry.1.slot ≤ entry.1.original + half
  unsent : ∀ i, IsDuplicate messages i → origin i ≠ entry.1.original

/-- What holds of a plan before each slot; `origin` names the originals of the duplicates sent. -/
structure Planning {Rng : Type} (rate : ℚ) (base : UInt64) (half : Nat) (origin : Nat → Nat)
    (i : Nat) (state : Planner Rng) : Prop where
  length : state.messages.length = i
  sent : ∀ j message, state.messages[j]? = some message →
    message.id = base ||| UInt64.ofNat j ∧
      durationOf (Rounding.double (j / rate)) = some message.at_
  repeats : ∀ j, IsDuplicate state.messages j → Repeats state.messages half j (origin j)
  once : ∀ j other, IsDuplicate state.messages j → IsDuplicate state.messages other →
    origin j = origin other → j = other
  ascending : Pairs.Ascending state.due
  distinct : (state.due.map fun entry => entry.1.original).Nodup
  waiting : ∀ entry ∈ state.due, Waiting state.messages half origin entry
  soon : Soon half i (state.due.map fun entry => entry.1.slot)

section Steps

variable {Rng : Type} {next : Rng → UInt64 × Rng} {rate : ℚ} {base : UInt64} {half i at_ : Nat}
  {origin : Nat → Nat} {state : Planner Rng}

theorem Planning.original (planning : Planning rate base half origin i state)
    (early : ∀ entry ∈ state.due, i < entry.1.slot) {message : Planned}
    (id : message.id = base ||| UInt64.ofNat i) (isOriginal : message.dupOf = none)
    (time : durationOf (Rounding.double (i / rate)) = some message.at_) (rng : Rng)
    (sentPerSet : List Nat) (originals : Nat) :
    Planning rate base half origin (i + 1)
      ⟨rng, sentPerSet, originals, state.due, state.messages ++ [message]⟩ := by
  have length := planning.length
  have same : ∀ j, IsDuplicate (state.messages ++ [message]) j ↔ IsDuplicate state.messages j := by
    intro j
    rw [isDuplicate_push]
    simp [isOriginal]
  constructor
  · rw [List.length_append, List.length_singleton, length]
  · intro j found listed
    rcases (getElem?_push found).mp listed with before | ⟨rfl, rfl⟩
    · exact planning.sent j found before
    · rw [length]
      exact ⟨id, time⟩
  · intro j duplicate
    exact (planning.repeats j ((same j).mp duplicate)).push message
  · intro j other duplicate otherDuplicate
    exact planning.once j other ((same j).mp duplicate) ((same other).mp otherDuplicate)
  · exact planning.ascending
  · exact planning.distinct
  · intro entry member
    obtain ⟨held, original, soon, unsent⟩ := planning.waiting entry member
    exact ⟨(getElem?_push _).mpr (Or.inl held), original, soon,
      fun j duplicate => unsent j ((same j).mp duplicate)⟩
  · refine Soon.quiet ?_ planning.soon.waiting
    intro slot member
    obtain ⟨entry, listed, rfl⟩ := List.mem_map.mp member
    exact early entry listed

theorem Planning.schedule (planning : Planning rate base half origin (i + 1) state)
    (early : ∀ entry ∈ state.due, i < entry.1.slot ∧ entry.1.original < i) {message : Planned}
    (held : state.messages[i]? = some message) (isOriginal : message.dupOf = none) {after : Nat}
    (later : 1 ≤ after ∧ after ≤ half) (room : state.due.length < half) :
    Planning rate base half origin (i + 1)
      { state with due := Pairs.put ⟨i + after, i⟩ message state.due } := by
  have fresh : ∀ pair ∈ state.due, pair.1 ≠ ⟨i + after, i⟩ := by
    intro pair member same
    have before := (early pair member).2
    rw [same] at before
    exact Nat.lt_irrefl i before
  have perm := Pairs.put_perm message fresh
  constructor
  · exact planning.length
  · exact planning.sent
  · exact planning.repeats
  · exact planning.once
  · exact Pairs.put_ascending message fresh planning.ascending
  · refine (perm.map _).nodup_iff.mpr ?_
    rw [List.map_cons]
    refine List.nodup_cons.mpr ⟨?_, planning.distinct⟩
    intro member
    obtain ⟨entry, listed, same⟩ := List.mem_map.mp member
    have before := (early entry listed).2
    rw [same] at before
    exact Nat.lt_irrefl i before
  · intro entry member
    rcases List.mem_cons.mp (perm.mem_iff.mp member) with rfl | listed
    · refine ⟨held, isOriginal, Nat.add_le_add_left later.2 i, ?_⟩
      intro j duplicate same
      obtain ⟨_, original, _, earlierIs, _⟩ := (planning.repeats j duplicate).copies
      have before := (planning.repeats j duplicate).after
      have inside : j < state.messages.length := duplicate.inside
      have length := planning.length
      simp only at same
      omega
    · exact planning.waiting entry listed
  · refine Soon.quiet ?_ ?_
    · intro slot member
      obtain ⟨entry, listed, rfl⟩ := List.mem_map.mp member
      rcases List.mem_cons.mp (perm.mem_iff.mp listed) with rfl | waits
      · simp only
        omega
      · exact (early entry waits).1
    · rw [List.length_map, perm.length_eq, List.length_cons]
      omega

theorem Planning.duplicate {key : Due} {original : Planned} {rest : List (Due × Planned)}
    (planning : Planning rate base half origin i state) (first : state.due = (key, original) :: rest)
    (isDue : key.slot ≤ i)
    (time : durationOf (Rounding.double (i / rate)) = some at_) :
    Planning rate base half (Function.update origin i key.original) (i + 1)
      { state with
        due := rest
        messages := state.messages ++
          [{ original with id := base ||| UInt64.ofNat i, dupOf := some original.id, at_ }] } := by
  have length := planning.length
  have soon := planning.soon
  have distinct := planning.distinct
  rw [first, List.map_cons] at soon distinct
  have waits := planning.waiting (key, original) (by rw [first]; exact List.mem_cons_self)
  have earlier : key.original < i := by
    rw [← length]
    exact (List.getElem?_eq_some_iff.mp waits.held).1
  have kept : ∀ j, IsDuplicate state.messages j →
      Function.update origin i key.original j = origin j := by
    intro j duplicate
    have inside := duplicate.inside
    exact Function.update_of_ne (by omega) _ _
  have either : ∀ j, IsDuplicate (state.messages ++
      [{ original with id := base ||| UInt64.ofNat i, dupOf := some original.id, at_ }]) j →
        IsDuplicate state.messages j ∨ j = i := by
    intro j duplicate
    rcases isDuplicate_push.mp duplicate with before | ⟨here, _⟩
    · exact Or.inl before
    · exact Or.inr (here.trans length)
  constructor
  · rw [List.length_append, List.length_singleton, length]
  · intro j found listed
    rcases (getElem?_push found).mp listed with before | ⟨rfl, rfl⟩
    · exact planning.sent j found before
    · rw [length]
      exact ⟨rfl, time⟩
  · intro j duplicate
    rcases either j duplicate with before | rfl
    · rw [kept j before]
      exact (planning.repeats j before).push _
    · rw [Function.update_self]
      have head : j < key.slot + half := soon.head isDue
      have within : key.slot ≤ key.original + half := waits.soon
      refine ⟨earlier, by omega, _, original, (getElem?_push _).mpr (Or.inr ⟨length.symm, rfl⟩),
        (getElem?_push _).mpr (Or.inl waits.held), waits.original, rfl, rfl, rfl, rfl⟩
  · intro j other duplicate otherDuplicate same
    rcases either j duplicate with before | rfl <;> rcases either other otherDuplicate with otherBefore | rfl
    · rw [kept j before, kept other otherBefore] at same
      exact planning.once j other before otherBefore same
    · rw [kept j before, Function.update_self] at same
      exact absurd same (waits.unsent j before)
    · rw [kept other otherBefore, Function.update_self] at same
      exact absurd same.symm (waits.unsent other otherBefore)
    · rfl
  · have ascending := planning.ascending
    rw [first] at ascending
    exact (List.pairwise_cons.mp ascending).2
  · exact (List.nodup_cons.mp distinct).2
  · intro entry member
    obtain ⟨held, isOriginal, near, unsent⟩ :=
      planning.waiting entry (by rw [first]; exact List.mem_cons_of_mem _ member)
    refine ⟨(getElem?_push _).mpr (Or.inl held), isOriginal, near, ?_⟩
    intro j duplicate
    rcases either j duplicate with before | rfl
    · rw [kept j before]
      exact unsent j before
    · rw [Function.update_self]
      intro same
      exact (List.nodup_cons.mp distinct).1 (List.mem_map.mpr ⟨entry, member, same.symm⟩)
  · exact soon.drain

theorem draw_some {dupChance : ℚ} {waiting after : Nat} {rng : Rng}
    (drawn : (draw next half dupChance waiting rng).1 = some after) :
    (1 ≤ after ∧ after ≤ half) ∧ waiting < half := by
  unfold draw at drawn
  split at drawn
  next room =>
    simp only at drawn
    split at drawn
    next =>
      simp only [Option.some.injEq] at drawn
      have below := Nat.mod_lt (next (next rng).2).1.toNat room.1
      omega
    next => cases drawn
  next => cases drawn

theorem Planning.sendOriginal {lens : List Nat} {dupChance : ℚ}
    (planning : Planning rate base half origin i state)
    (early : ∀ entry ∈ state.due, i < entry.1.slot)
    (time : durationOf (Rounding.double (i / rate)) = some at_) :
    Planning rate base half origin (i + 1)
      (sendOriginal next lens half dupChance (base ||| UInt64.ofNat i) at_ i state) := by
  have length := planning.length
  unfold Harness.sendOriginal
  cases drawn : draw next half dupChance state.due.length state.rng with
  | mk after rng =>
      have appended := fun message id isOriginal time sentPerSet originals =>
        @Planning.original _ _ _ _ _ _ _ planning early message id isOriginal time rng sentPerSet
          originals
      cases after with
      | none => exact appended _ rfl rfl time _ _
      | some after =>
          obtain ⟨later, room⟩ := draw_some (congrArg Prod.fst drawn)
          have sent := appended ⟨base ||| UInt64.ofNat i, state.originals % lens.length,
            state.sentPerSet.getD (state.originals % lens.length) 0 %
              lens.getD (state.originals % lens.length) 0,
            state.sentPerSet.getD (state.originals % lens.length) 0 /
              lens.getD (state.originals % lens.length) 0, none, at_⟩ rfl rfl time
          refine Planning.schedule (sent _ _) ?_ ?_ rfl later room
          · intro entry member
            refine ⟨early entry member, ?_⟩
            rw [← length]
            exact (List.getElem?_eq_some_iff.mp (planning.waiting entry member).held).1
          · exact (getElem?_push _).mpr (Or.inr ⟨length.symm, rfl⟩)

theorem Planning.slot {lens : List Nat} {dupChance : ℚ} {after : Planner Rng}
    (planning : Planning rate base half origin i state)
    (ran : slot next rate lens half dupChance base state i = .ok after) :
    ∃ origin, Planning rate base half origin (i + 1) after := by
  unfold Harness.slot at ran
  simp only at ran
  split at ran
  next => cases ran
  next at_ time =>
    split at ran
    next empty =>
      cases ran
      refine ⟨origin, planning.sendOriginal ?_ time⟩
      intro entry member
      rw [empty] at member
      cases member
    next key original rest first =>
      split at ran
      next isDue =>
        cases ran
        exact ⟨_, planning.duplicate first isDue time⟩
      next notYet =>
        cases ran
        refine ⟨origin, planning.sendOriginal ?_ time⟩
        intro entry member
        have ascending := planning.ascending
        rw [first] at member ascending
        rcases List.mem_cons.mp member with rfl | behind
        · exact Nat.lt_of_not_le notYet
        · have order := Due.slot_le ((List.pairwise_cons.mp ascending).1 entry behind)
          simp only at order
          omega

theorem slots_planning {lens : List Nat} {dupChance : ℚ} {rng : Rng} {sentPerSet : List Nat}
    {count : Nat} {after : Planner Rng}
    (ran : (List.range count).foldlM (Harness.slot next rate lens half dupChance base)
      ⟨rng, sentPerSet, 0, [], []⟩ = .ok after) :
    ∃ origin, Planning rate base half origin count after := by
  induction count generalizing after with
  | zero =>
      cases ran
      refine ⟨fun _ => 0, rfl, ?_, ?_, ?_, List.Pairwise.nil, List.nodup_nil, ?_, ?_⟩
      · intro j message listed
        cases listed
      · rintro j ⟨message, listed, _⟩
        cases listed
      · rintro j other ⟨message, listed, _⟩
        cases listed
      · intro entry member
        cases member
      · exact ⟨Nat.zero_le _, fun _ _ listed => by cases listed⟩
  | succ count ih =>
      rw [List.range_succ, List.foldlM_append] at ran
      obtain ⟨state, before, last⟩ := Fallible.bind_ok_iff.mp ran
      obtain ⟨origin, planning⟩ := ih before
      rw [List.foldlM_cons] at last
      obtain ⟨final, stepped, done⟩ := Fallible.bind_ok_iff.mp last
      cases done
      exact planning.slot stepped

end Steps

section Times

open Rounding (double halfEven double_near halfEven_near double_nonneg)

theorem durationOf_near {seconds : ℚ} (nonneg : 0 ≤ seconds) {time : Nat}
    (is : durationOf seconds = some time) :
    seconds * 1000000000 ≤ time + 1 / 2 ∧ (time : ℚ) ≤ seconds * 1000000000 + 1 / 2 := by
  unfold durationOf at is
  split at is
  next =>
    cases is
    exact halfEven_near (by positivity)
  next => cases is

/-- Twice the half lag are at most the slots of half a second, up to the rounding of the product. -/
theorem two_halfLag_le {rate : ℚ} (nonneg : 0 ≤ rate) :
    2 * (halfLag rate : ℚ) ≤
      rate / 2 + (rate / 2 * 2 ^ (-52 : Int) + 2 ^ (-1074 : Int)) / 2 := by
  have whole : 2 * halfLag rate ≤ (double (1 / 2 * rate)).floor.toNat := by
    unfold halfLag
    omega
  have floored : (((double (1 / 2 * rate)).floor.toNat : Nat) : ℚ) ≤ double (1 / 2 * rate) := by
    have floorNonneg : 0 ≤ (double (1 / 2 * rate)).floor := Rat.le_floor_iff.mpr (by
      exact_mod_cast double_nonneg _)
    have same : (((double (1 / 2 * rate)).floor.toNat : Nat) : Int) = (double (1 / 2 * rate)).floor :=
      Int.toNat_of_nonneg floorNonneg
    have below := Rat.floor_le (double (1 / 2 * rate))
    rw [← same] at below
    exact_mod_cast below
  have near := (@double_near (1 / 2 * rate) (by positivity)).2
  have lag : 2 * (halfLag rate : ℚ) ≤ double (1 / 2 * rate) := by
    refine le_trans ?_ floored
    exact_mod_cast whole
  have half : 1 / 2 * rate = rate / 2 := by ring
  rw [half] at lag near
  exact lag.trans near

/-- Two slots closer than the lag are closer than it in seconds too, all roundings included: by
most of a slot's time when slots are long, and because a plan has few slots when they are short. -/
theorem seconds_apart {rate earlier later small least : ℚ} (positive : 0 < rate)
    (nonneg : 0 ≤ earlier) (few : later ≤ 4194304) (order : earlier ≤ later)
    (smallIs : small = 2 ^ (-52 : Int)) (leastIs : 0 < least ∧ least ≤ small)
    (slots : later - earlier + 1 ≤ rate / 2 + (rate / 2 * small + least) / 2) :
    (later / rate - earlier / rate) + ((later / rate + earlier / rate) * small + 2 * least) / 2 <
      1 / 2 := by
  have smallValue : small = 1 / 4503599627370496 := by rw [smallIs]; norm_num
  have inverse : 0 < rate⁻¹ := inv_pos.mpr positive
  have unit : rate * rate⁻¹ = 1 := mul_inv_cancel₀ positive.ne'
  have scaled := mul_le_mul_of_nonneg_right slots inverse.le
  have fewScaled := mul_le_mul_of_nonneg_right few inverse.le
  have orderScaled := mul_le_mul_of_nonneg_right order inverse.le
  have nonnegScaled := mul_nonneg nonneg inverse.le
  have leastScaled := mul_le_mul_of_nonneg_right leastIs.2 inverse.le
  have expanded : (rate / 2 + (rate / 2 * small + least) / 2) * rate⁻¹ =
      1 / 2 + small / 4 + least * rate⁻¹ / 2 := by
    calc (rate / 2 + (rate / 2 * small + least) / 2) * rate⁻¹
      _ = rate * rate⁻¹ * (1 / 2 + small / 4) + least * rate⁻¹ / 2 := by ring
      _ = 1 / 2 + small / 4 + least * rate⁻¹ / 2 := by rw [unit, one_mul]
  have apart : (later - earlier + 1) * rate⁻¹ = later * rate⁻¹ - earlier * rate⁻¹ + rate⁻¹ := by ring
  rw [expanded, apart] at scaled
  rw [div_eq_mul_inv, div_eq_mul_inv]
  generalize later * rate⁻¹ = laterTime at *
  generalize earlier * rate⁻¹ = earlierTime at *
  generalize least * rate⁻¹ = leastTime at *
  generalize rate⁻¹ = slotTime at *
  subst smallValue
  rcases le_total (1 / 1000000000000) slotTime with long | short
  · linarith
  · linarith

theorem lag_time {rate : ℚ} (nonneg : 0 ≤ rate) {earlier later : Nat}
    {earlierTime laterTime : Nat} (after : earlier < later)
    (within : later < earlier + 2 * halfLag rate) (few : later < maxCount)
    (earlierAt : durationOf (double (earlier / rate)) = some earlierTime)
    (laterAt : durationOf (double (later / rate)) = some laterTime) :
    laterTime ≤ earlierTime + dupLag := by
  have lag := two_halfLag_le nonneg
  have positive : 0 < rate := by
    rcases nonneg.eq_or_lt with zero | positive
    · subst zero
      have none_ : halfLag 0 = 0 := by decide +kernel
      omega
    · exact positive
  have laterNonneg : (0 : ℚ) ≤ later / rate := by positivity
  have earlierNonneg : (0 : ℚ) ≤ earlier / rate := by positivity
  have laterNear := (durationOf_near (double_nonneg _) laterAt).2
  have earlierNear := (durationOf_near (double_nonneg _) earlierAt).1
  have laterDouble := (double_near laterNonneg).2
  have earlierDouble := (double_near earlierNonneg).1
  have order : (earlier : ℚ) ≤ later := by exact_mod_cast after.le
  have bound : (later : ℚ) ≤ 4194304 := by
    have below : later ≤ 4194304 := by
      unfold maxCount at few
      omega
    exact_mod_cast below
  have slots : (later : ℚ) - earlier + 1 ≤ 2 * (halfLag rate : ℚ) := by
    have whole : later + 1 ≤ earlier + 2 * halfLag rate := within
    have cast : (later : ℚ) + 1 ≤ earlier + 2 * halfLag rate := by exact_mod_cast whole
    linarith
  have least : (0 : ℚ) < 2 ^ (-1074 : Int) ∧ (2 : ℚ) ^ (-1074 : Int) ≤ 2 ^ (-52 : Int) :=
    ⟨by positivity, zpow_le_zpow_right₀ (by norm_num) (by norm_num)⟩
  have apart := seconds_apart positive (by positivity) bound order rfl least (slots.trans lag)
  have close : (laterTime : ℚ) < earlierTime + 500000001 := by
    generalize (2 : ℚ) ^ (-1074 : Int) = tiny at *
    generalize (2 : ℚ) ^ (-52 : Int) = small at *
    linarith
  have whole : laterTime < earlierTime + 500000001 := by exact_mod_cast close
  unfold dupLag
  omega

end Times

section Plans

variable {Rng : Type} {next : Rng → UInt64 × Rng}

theorem planWith_slots {config : PlanConfig} {lens : List Nat} {base : UInt64} {rng : Rng}
    {messages : List Planned} (planned : planWith next config lens base rng = .ok messages) :
    config.count < maxCount ∧ ∃ origin state,
      Planning config.rate.absolute base (halfLag config.rate.absolute) origin config.count
        (state : Planner Rng) ∧ state.messages = messages := by
  unfold planWith at planned
  split at planned
  next => cases planned
  next =>
    split at planned
    next => cases planned
    next =>
      split at planned
      next => cases planned
      next few =>
        split at planned
        next => cases planned
        next shortest _ =>
          simp only at planned
          split at planned
          next => cases planned
          next =>
            split at planned
            next => cases planned
            next =>
              split at planned
              next => cases planned
              next =>
                split at planned
                next => cases planned
                next =>
                  split at planned
                  next => cases planned
                  next =>
                    obtain ⟨state, ran, same⟩ := Fallible.map_ok_iff.mp planned
                    obtain ⟨origin, planning⟩ := slots_planning ran
                    exact ⟨Nat.lt_of_not_le few, origin, state, planning, same⟩

/-- In every plan, whatever is drawn: the ids are `base | i` in order, each duplicate repeats an
original before it that no other repeats, fewer than twice the half lag of slots later, and is sent
within the lag. -/
theorem planWith_lag (next : Rng → UInt64 × Rng) {config : PlanConfig} {lens : List Nat}
    {base : UInt64} {rng : Rng} {messages : List Planned}
    (planned : planWith next config lens base rng = .ok messages) :
    messages.map Planned.id = (List.range config.count).map (fun i => base ||| UInt64.ofNat i) ∧
      ∃ origin : Nat → Nat,
        (∀ i, IsDuplicate messages i →
          Repeats messages (halfLag config.rate.absolute) i (origin i) ∧
          ∀ duplicate original, messages[i]? = some duplicate →
            messages[origin i]? = some original → duplicate.at_ ≤ original.at_ + dupLag) ∧
        ∀ i j, IsDuplicate messages i → IsDuplicate messages j → origin i = origin j → i = j := by
  obtain ⟨few, origin, state, planning, rfl⟩ := planWith_slots planned
  refine ⟨?_, origin, ?_, planning.once⟩
  · apply List.ext_getElem
    · rw [List.length_map, List.length_map, List.length_range, planning.length]
    · intro i inside _
      rw [List.length_map] at inside
      rw [List.getElem_map, List.getElem_map, List.getElem_range]
      exact (planning.sent i _ (List.getElem?_eq_getElem inside)).1
  · intro i duplicate
    have repeats := planning.repeats i duplicate
    refine ⟨repeats, ?_⟩
    intro message original laterIs earlierIs
    have inside := duplicate.inside
    rw [planning.length] at inside
    exact lag_time config.rate.absolute_nonneg repeats.after repeats.within (inside.trans few)
      (planning.sent _ _ earlierIs).2 (planning.sent _ _ laterIs).2

def slowest : PlanConfig :=
  ⟨⟨0x4010000000000000⟩, 4, 50, 1, 0⟩

theorem planWith_lag_slowest :
    plan slowest [3] 64 = .ok [⟨64, 0, 0, 0, none, 0⟩, ⟨65, 0, 0, 0, some 64, 250000000⟩,
      ⟨66, 0, 1, 0, none, 500000000⟩, ⟨67, 0, 1, 0, some 66, 750000000⟩] ∧
    ∃ origin : Nat → Nat, ∀ i,
      IsDuplicate [⟨64, 0, 0, 0, none, 0⟩, ⟨65, 0, 0, 0, some 64, 250000000⟩,
        ⟨66, 0, 1, 0, none, 500000000⟩, ⟨67, 0, 1, 0, some 66, 750000000⟩] i → origin i < i := by
  have planned : plan slowest [3] 64 = .ok [⟨64, 0, 0, 0, none, 0⟩,
      ⟨65, 0, 0, 0, some 64, 250000000⟩, ⟨66, 0, 1, 0, none, 500000000⟩,
      ⟨67, 0, 1, 0, some 66, 750000000⟩] := by decide +kernel
  obtain ⟨_, origin, repeats, _⟩ := planWith_lag splitMix64 planned
  exact ⟨planned, origin, fun i duplicate => (repeats i duplicate).1.after⟩

end Plans

end FusionPipeline.Harness
