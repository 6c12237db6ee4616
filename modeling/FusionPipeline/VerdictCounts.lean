import Mathlib.Data.Finset.Card
import Mathlib.Data.Set.Card
import FusionPipeline.Verdict

/-! The verdict's books balance: where each written message is counted, what was reached, and that
the order of the messages does not matter. -/

namespace FusionPipeline.Harness

def Expectation.reaches (e : Expectation) (w : Written) : Bool :=
  parseId w.recordId == some e.id && e.subjects.contains w.subject && w.tenant == some e.tenant

/-- Each id is expected once, and a group's expectations name the same subjects, each once. -/
structure Coherent (expectations : List Expectation) : Prop where
  unique : (expectations.map Expectation.id).Nodup
  distinct : ∀ e ∈ expectations, e.subjects.Nodup
  alike : ∀ e ∈ expectations, ∀ other ∈ expectations, e.group = other.group →
    ∀ subject ∈ e.subjects, subject ∈ other.subjects

inductive Place where
  | unexpected
  | first
  | extra
  deriving DecidableEq, Repr

section Places

variable (expectations : List Expectation)

def arrival (w : Written) : Option (Expectation × String) :=
  (expectations.find? fun e => e.reaches w).map fun e => (e, w.subject)

def arrivals (written : List Written) : List (Expectation × String) :=
  written.filterMap (arrival expectations)

def reachedPair (arrived : Expectation × String) : Group × String :=
  (arrived.1.group, arrived.2)

def placeAfter (before : List Written) (w : Written) : Place :=
  match arrival expectations w with
  | none => .unexpected
  | some arrived =>
      if reachedPair arrived ∈ (arrivals expectations before).map reachedPair then .extra else .first

def placesFrom (before : List Written) : List Written → List Place
  | [] => []
  | w :: rest => placeAfter expectations before w :: placesFrom (before ++ [w]) rest

def places (written : List Written) : List Place :=
  placesFrom expectations [] written

end Places

variable {expectations : List Expectation}

theorem placesFrom_append (before written : List Written) (w : Written) :
    placesFrom expectations before (written ++ [w]) =
      placesFrom expectations before written ++ [placeAfter expectations (before ++ written) w] := by
  induction written generalizing before with
  | nil => rw [List.nil_append, placesFrom, placesFrom, placesFrom, List.append_nil, List.nil_append]
  | cons first rest ih =>
      rw [List.cons_append, placesFrom, ih, placesFrom, List.append_assoc, List.cons_append,
        List.cons_append, List.nil_append]

theorem places_append (written : List Written) (w : Written) :
    places expectations (written ++ [w]) =
      places expectations written ++ [placeAfter expectations written w] := by
  rw [places, placesFrom_append, List.nil_append, places]

theorem placeAfter_none {before : List Written} {w : Written}
    (absent : arrival expectations w = none) : placeAfter expectations before w = .unexpected := by
  rw [placeAfter, absent]

theorem placeAfter_some {before : List Written} {w : Written} {arrived : Expectation × String}
    (found : arrival expectations w = some arrived) :
    placeAfter expectations before w =
      if reachedPair arrived ∈ (arrivals expectations before).map reachedPair then .extra
      else .first := by
  rw [placeAfter, found]

theorem arrivals_append (written : List Written) (w : Written) :
    arrivals expectations (written ++ [w]) =
      arrivals expectations written ++ (arrival expectations w).toList := by
  rw [arrivals, List.filterMap_append, arrivals]
  cases arrived : arrival expectations w with
  | none => simp [arrived]
  | some value => simp [arrived]

theorem length_places (written : List Written) :
    (places expectations written).length = written.length := by
  induction written using List.reverseRecOn with
  | nil => rfl
  | append_singleton written w ih => rw [places_append, List.length_append, ih, List.length_append,
      List.length_singleton, List.length_singleton]

theorem Place.count_length (all : List Place) :
    all.count .unexpected + all.count .first + all.count .extra = all.length := by
  induction all with
  | nil => rfl
  | cons place rest ih =>
      simp only [List.count_cons, List.length_cons]
      cases place with
      | unexpected => simp; omega
      | first => simp; omega
      | extra => simp; omega

theorem count_unexpected (written : List Written) :
    (places expectations written).count .unexpected =
      written.countP fun w => (arrival expectations w).isNone := by
  induction written using List.reverseRecOn with
  | nil => rfl
  | append_singleton written w ih =>
      rw [places_append, List.count_append, ih, List.countP_append]
      cases found : arrival expectations w with
      | none => simp [placeAfter_none found, found]
      | some arrived =>
          rw [placeAfter_some found]
          split
          next => simp [found]
          next => simp [found]

theorem count_first (written : List Written) :
    (places expectations written).count .first =
      ((arrivals expectations written).map reachedPair).dedup.length := by
  induction written using List.reverseRecOn with
  | nil => rfl
  | append_singleton written w ih =>
      rw [places_append, List.count_append, ih, arrivals_append]
      cases found : arrival expectations w with
      | none => simp [placeAfter_none found]
      | some arrived =>
          rw [placeAfter_some found, Option.toList_some, List.map_append, List.map_singleton]
          have swap := (List.perm_append_singleton (reachedPair arrived)
            ((arrivals expectations written).map reachedPair)).dedup
          rw [swap.length_eq]
          split
          next member =>
            rw [List.dedup_cons_of_mem member]
            simp
          next absent =>
            rw [List.dedup_cons_of_notMem absent]
            simp

section Arriving

variable {rendering : Rendering}

theorem compare_totals (report : Report) (e : Expectation) (attributes : Attributes) :
    (report.compare rendering e attributes).toTotals = report.toTotals := by
  unfold Report.compare
  split
  · split <;> rfl
  · split <;> rfl

theorem compareOnce_same (pass : Pass) (e : Expectation) (w : Written) :
    (pass.compareOnce rendering e w).report.toTotals = pass.report.toTotals ∧
      (pass.compareOnce rendering e w).copies = pass.copies ∧
      (pass.compareOnce rendering e w).copiesPerGroup = pass.copiesPerGroup ∧
      (pass.compareOnce rendering e w).reached = pass.reached := by
  unfold Pass.compareOnce
  split
  next => exact ⟨compare_totals _ e w.attributes, rfl, rfl, rfl⟩
  next => exact ⟨rfl, rfl, rfl, rfl⟩

theorem reach_fields (pass : Pass) (e : Expectation) (w : Written) :
    (pass.reach rendering e w).report.toTotals =
        (if 1 < (Pairs.find (e.group, w.subject) (Tally.bump (e.group, w.subject) pass.reached)).getD 0
          then { pass.report.toTotals with extraCopies := pass.report.extraCopies + 1 }
          else pass.report.toTotals) ∧
      (pass.reach rendering e w).copies = pass.copies ∧
      (pass.reach rendering e w).copiesPerGroup = pass.copiesPerGroup ∧
      (pass.reach rendering e w).reached = Tally.bump (e.group, w.subject) pass.reached := by
  simp only [Pass.reach, compareOnce_same]
  split
  next => exact ⟨rfl, rfl, rfl, rfl⟩
  next => exact ⟨rfl, rfl, rfl, rfl⟩

theorem arrive_repeated {pass : Pass} {e : Expectation} {w : Written}
    (again : 1 < (Pairs.find (e.id, w.subject) (Tally.bump (e.id, w.subject) pass.copies)).getD 0) :
    pass.arrive rendering e w = Pass.addExtra { pass with
      copiesPerGroup := Tally.bump (e.group, w.subject) pass.copiesPerGroup
      copies := Tally.bump (e.id, w.subject) pass.copies } := by
  simp only [Pass.arrive, again, ↓reduceIte]

theorem arrive_fresh {pass : Pass} {e : Expectation} {w : Written}
    (fresh : ¬ 1 < (Pairs.find (e.id, w.subject) (Tally.bump (e.id, w.subject) pass.copies)).getD 0) :
    pass.arrive rendering e w = Pass.reach rendering { pass with
      copiesPerGroup := Tally.bump (e.group, w.subject) pass.copiesPerGroup
      copies := Tally.bump (e.id, w.subject) pass.copies } e w := by
  simp only [Pass.arrive, fresh, ↓reduceIte]

end Arriving

section Tracking

variable {rendering : Rendering}

theorem find?_iff {Item : Type} {items : List Item} {good : Item → Bool}
    (one : ∀ item ∈ items, ∀ other ∈ items, good item = true → good other = true → item = other)
    {item : Item} : items.find? good = some item ↔ item ∈ items ∧ good item = true := by
  constructor
  · intro found
    exact ⟨List.mem_of_find?_eq_some found, List.find?_some found⟩
  · rintro ⟨member, isGood⟩
    cases found : items.find? good with
    | none => exact absurd isGood (List.find?_eq_none.mp found item member)
    | some other =>
        rw [one item member other (List.mem_of_find?_eq_some found) isGood (List.find?_some found)]

theorem byId_iff (unique : (expectations.map Expectation.id).Nodup) {id : UInt64}
    {e : Expectation} : byId expectations id = some e ↔ e ∈ expectations ∧ e.id = id := by
  have same := List.inj_on_of_nodup_map unique
  rw [byId, find?_iff]
  · rw [List.mem_reverse, beq_iff_eq]
  · intro e member other isMember isId otherId
    rw [List.mem_reverse] at member isMember
    rw [beq_iff_eq] at isId otherId
    exact same member isMember (isId.trans otherId.symm)

theorem arrival_iff (unique : (expectations.map Expectation.id).Nodup) {w : Written}
    {arrived : Expectation × String} :
    arrival expectations w = some arrived ↔
      arrived.1 ∈ expectations ∧ arrived.1.reaches w = true ∧ arrived.2 = w.subject := by
  have same := List.inj_on_of_nodup_map unique
  rw [arrival, Option.map_eq_some_iff]
  simp only [@find?_iff _ expectations (fun e => e.reaches w) (by
    intro e member other isMember reaches otherReaches
    simp only [Expectation.reaches, Bool.and_eq_true, beq_iff_eq] at reaches otherReaches
    have ids := reaches.1.1.symm.trans otherReaches.1.1
    exact same member isMember (Option.some.inj ids))]
  constructor
  · rintro ⟨e, ⟨member, reaches⟩, rfl⟩
    exact ⟨member, reaches, rfl⟩
  · rintro ⟨member, reaches, subject⟩
    exact ⟨arrived.1, ⟨member, reaches⟩, by rw [← subject]⟩

theorem observe_none (unique : (expectations.map Expectation.id).Nodup) {w : Written}
    (absent : arrival expectations w = none) (pass : Pass) :
    ∃ text, pass.observe rendering (byId expectations) w = pass.addUnexpected text := by
  unfold Pass.observe
  split
  next => exact ⟨_, rfl⟩
  next e named =>
    split
    next => exact ⟨_, rfl⟩
    next expected =>
      obtain ⟨id, parsed, found⟩ := Option.bind_eq_some_iff.mp named
      obtain ⟨member, rfl⟩ := (byId_iff unique).mp found
      have arrived : arrival expectations w = some (e, w.subject) := by
        refine (arrival_iff unique).mpr ⟨member, ?_, rfl⟩
        simp only [Bool.or_eq_true, Bool.not_eq_eq_eq_not, Bool.not_true, bne_iff_ne, not_or,
          Bool.not_eq_false, Classical.not_not] at expected
        simp [Expectation.reaches, parsed, List.contains_iff_mem.mp expected.1, expected.2]
      rw [absent] at arrived
      cases arrived

theorem observe_some (unique : (expectations.map Expectation.id).Nodup) {w : Written}
    {arrived : Expectation × String} (found : arrival expectations w = some arrived) (pass : Pass) :
    pass.observe rendering (byId expectations) w = pass.arrive rendering arrived.1 w := by
  obtain ⟨member, reaches, _⟩ := (arrival_iff unique).mp found
  simp only [Expectation.reaches, Bool.and_eq_true, beq_iff_eq] at reaches
  obtain ⟨⟨parsed, subject⟩, tenant⟩ := reaches
  have named : byId expectations arrived.1.id = some arrived.1 := (byId_iff unique).mpr ⟨member, rfl⟩
  simp [Pass.observe, parsed, named, List.contains_iff_mem.mp subject, tenant]

def copyKey (arrived : Expectation × String) : UInt64 × String :=
  (arrived.1.id, arrived.2)

theorem copyKey_injective (unique : (expectations.map Expectation.id).Nodup) {w other : Written}
    {arrived earlier : Expectation × String} (found : arrival expectations w = some arrived)
    (foundEarlier : arrival expectations other = some earlier)
    (same : copyKey arrived = copyKey earlier) : arrived = earlier := by
  have member := ((arrival_iff unique).mp found).1
  have earlierMember := ((arrival_iff unique).mp foundEarlier).1
  simp only [copyKey, Prod.mk.injEq] at same
  exact Prod.ext (List.inj_on_of_nodup_map unique member earlierMember same.1) same.2

structure Tracks (expectations : List Expectation) (start : Totals) (seen : List Written)
    (pass : Pass) : Prop where
  totals : pass.report.toTotals = { start with
    unexpected := start.unexpected + (places expectations seen).count .unexpected
    extraCopies := start.extraCopies + (places expectations seen).count .extra }
  copies : Tally.Counts pass.copies ((arrivals expectations seen).map copyKey)
  copiesPerGroup : Tally.Counts pass.copiesPerGroup ((arrivals expectations seen).map reachedPair)
  reached : Tally.Counts pass.reached ((arrivals expectations seen).dedup.map reachedPair)

theorem Tracks.missed {start : Totals} {seen : List Written} {pass : Pass} {w : Written}
    (tracks : Tracks expectations start seen pass) (absent : arrival expectations w = none)
    (text : String) : Tracks expectations start (seen ++ [w]) (pass.addUnexpected text) := by
  have same : arrivals expectations (seen ++ [w]) = arrivals expectations seen := by
    rw [arrivals_append, absent, Option.toList_none, List.append_nil]
  constructor
  · rw [places_append, placeAfter_none absent, List.count_append, List.count_append]
    change { pass.report.toTotals with unexpected := pass.report.unexpected + 1 } = _
    rw [tracks.totals]
    rfl
  · rw [same]
    exact tracks.copies
  · rw [same]
    exact tracks.copiesPerGroup
  · rw [same]
    exact tracks.reached

theorem Tracks.arrive (unique : (expectations.map Expectation.id).Nodup) {start : Totals}
    {seen : List Written} {pass : Pass} {w : Written} {arrived : Expectation × String}
    (tracks : Tracks expectations start seen pass) (found : arrival expectations w = some arrived) :
    Tracks expectations start (seen ++ [w]) (pass.arrive rendering arrived.1 w) := by
  have subject := ((arrival_iff unique).mp found).2.2
  have key : (arrived.1.id, w.subject) = copyKey arrived := by rw [copyKey, subject]
  have pair : (arrived.1.group, w.subject) = reachedPair arrived := by rw [reachedPair, subject]
  have more : arrivals expectations (seen ++ [w]) = arrivals expectations seen ++ [arrived] := by
    rw [arrivals_append, found, Option.toList_some]
  have again : copyKey arrived ∈ (arrivals expectations seen).map copyKey ↔
      arrived ∈ arrivals expectations seen := by
    constructor
    · intro listed
      obtain ⟨earlier, member, same⟩ := List.mem_map.mp listed
      obtain ⟨other, _, foundEarlier⟩ := List.mem_filterMap.mp member
      rw [copyKey_injective unique found foundEarlier same.symm]
      exact member
    · exact List.mem_map_of_mem
  have copies := tracks.copies.bump (copyKey arrived)
  have copiesPerGroup := tracks.copiesPerGroup.bump (reachedPair arrived)
  rw [← List.map_singleton, ← List.map_append, ← more] at copies copiesPerGroup
  have swap := (List.perm_append_singleton arrived (arrivals expectations seen)).dedup
  by_cases repeated : 1 < (Pairs.find (arrived.1.id, w.subject)
      (Tally.bump (arrived.1.id, w.subject) pass.copies)).getD 0
  · rw [arrive_repeated repeated]
    rw [key, tracks.copies.one_lt_bump, again] at repeated
    have extra : placeAfter expectations seen w = .extra := by
      rw [placeAfter_some found, if_pos (List.mem_map_of_mem repeated)]
    constructor
    · rw [places_append, extra, List.count_append, List.count_append]
      change { pass.report.toTotals with extraCopies := pass.report.extraCopies + 1 } = _
      rw [tracks.totals]
      rfl
    · rw [← key] at copies
      exact copies
    · rw [← pair] at copiesPerGroup
      exact copiesPerGroup
    · rw [List.dedup_cons_of_mem repeated] at swap
      rw [more]
      exact tracks.reached.perm (swap.symm.map reachedPair)
  · rw [arrive_fresh repeated]
    rw [key, tracks.copies.one_lt_bump, again] at repeated
    have fields := @reach_fields rendering { pass with
      copiesPerGroup := Tally.bump (arrived.1.group, w.subject) pass.copiesPerGroup
      copies := Tally.bump (arrived.1.id, w.subject) pass.copies } arrived.1 w
    obtain ⟨totals, sameCopies, sameGroups, reached⟩ := fields
    rw [List.dedup_cons_of_notMem repeated] at swap
    constructor
    · rw [totals, places_append, placeAfter_some found, List.count_append, List.count_append]
      simp only [pair, tracks.reached.one_lt_bump, List.mem_map, List.mem_dedup]
      rw [tracks.totals]
      split <;> rfl
    · rw [sameCopies, key]
      exact copies
    · rw [sameGroups, pair]
      exact copiesPerGroup
    · rw [reached, pair, more]
      refine (tracks.reached.bump (reachedPair arrived)).perm ?_
      have moved := (swap.trans (List.perm_append_singleton _ _).symm).symm.map reachedPair
      rw [List.map_append, List.map_singleton] at moved
      exact moved

theorem observe_tracks (unique : (expectations.map Expectation.id).Nodup) {pass : Pass}
    (start : pass.copies = [] ∧ pass.copiesPerGroup = [] ∧ pass.reached = [])
    (written : List Written) :
    Tracks expectations pass.report.toTotals written
      (written.foldl (Pass.observe rendering (byId expectations)) pass) := by
  induction written using List.reverseRecOn with
  | nil =>
      obtain ⟨copies, copiesPerGroup, reached⟩ := start
      refine ⟨rfl, ?_, ?_, ?_⟩
      · rw [List.foldl_nil, copies]
        exact .nil
      · rw [List.foldl_nil, copiesPerGroup]
        exact .nil
      · rw [List.foldl_nil, reached]
        exact .nil
  | append_singleton written w ih =>
      rw [List.foldl_append, List.foldl_cons, List.foldl_nil]
      cases found : arrival expectations w with
      | none =>
          obtain ⟨text, missed⟩ := observe_none unique found
            (written.foldl (Pass.observe rendering (byId expectations)) pass)
          rw [missed]
          exact ih.missed found text
      | some arrived =>
          rw [observe_some unique found]
          exact ih.arrive unique found

end Tracking

section Groups

structure Grouped (seen : List Expectation) (groups : List (Group × Members)) : Prop where
  distinct : (groups.map Prod.fst).Nodup
  first : ∀ entry ∈ groups, entry.2.first ∈ seen ∧ entry.2.first.group = entry.1
  covers : ∀ e ∈ seen, e.group ∈ groups.map Prod.fst

theorem Grouped.add {seen : List Expectation} {groups : List (Group × Members)}
    (grouped : Grouped seen groups) (e : Expectation) :
    Grouped (seen ++ [e]) (addMember groups e) := by
  have keys := @Pairs.keys_put _ _ _ e.group groups _ _
    ⟨((Pairs.find e.group groups).getD ⟨e, 0, 0⟩).first,
      ((Pairs.find e.group groups).getD ⟨e, 0, 0⟩).size + 1,
      if e.drop.isSome then ((Pairs.find e.group groups).getD ⟨e, 0, 0⟩).planned + 1
      else ((Pairs.find e.group groups).getD ⟨e, 0, 0⟩).planned⟩
  constructor
  · rw [addMember]
    refine keys.nodup_iff.mpr ?_
    split
    next => exact grouped.distinct
    next absent =>
      exact List.nodup_cons.mpr
        ⟨Pairs.not_mem_keys (Option.not_isSome_iff_eq_none.mp absent), grouped.distinct⟩
  · intro entry member
    rcases Pairs.mem_put member with rfl | early
    · cases found : Pairs.find e.group groups with
      | none => exact ⟨List.mem_append_right _ (List.mem_singleton_self e), rfl⟩
      | some members =>
          obtain ⟨listed, same⟩ := grouped.first _ (Pairs.mem_of_find found)
          exact ⟨List.mem_append_left _ listed, same⟩
    · obtain ⟨listed, same⟩ := grouped.first entry early
      exact ⟨List.mem_append_left _ listed, same⟩
  · intro other member
    rw [addMember]
    refine keys.mem_iff.mpr ?_
    split
    next held =>
      rcases List.mem_append.mp member with early | late
      · exact grouped.covers other early
      · rw [List.mem_singleton] at late
        obtain ⟨members, found⟩ := Option.isSome_iff_exists.mp held
        rw [late]
        exact List.mem_map.mpr ⟨_, Pairs.mem_of_find found, rfl⟩
    next =>
      rcases List.mem_append.mp member with early | late
      · exact List.mem_cons_of_mem _ (grouped.covers other early)
      · rw [List.mem_singleton] at late
        rw [late]
        exact List.mem_cons_self

theorem grouped_all (expectations : List Expectation) :
    Grouped expectations (expectations.foldl addMember []) := by
  induction expectations using List.reverseRecOn with
  | nil =>
      refine ⟨List.nodup_nil, ?_, ?_⟩
      · intro entry member
        cases member
      · intro e member
        cases member
  | append_singleton expectations e ih =>
      rw [List.foldl_append]
      exact ih.add e

def Totals.addGroup (reached copiesPerGroup : Group × String → Option Nat) (totals : Totals)
    (entry : Group × Members) : Totals :=
  let subjects := entry.2.first.subjects
  { totals with
    expected := totals.expected + subjects.length
    missing := totals.missing + subjects.countP fun subject => (reached (entry.1, subject)).isNone
    sampledOut := if subjects.contains mainSubject then totals.sampledOut else totals.sampledOut + 1
    repeatedOnEverySubject :=
      if 1 < subjects.length ∧ subjects.all fun subject => (copiesPerGroup (entry.1, subject)).any (1 < ·)
      then totals.repeatedOnEverySubject + 1 else totals.repeatedOnEverySubject
    duplicatesPlanned := totals.duplicatesPlanned + if subjects = [] then 0 else entry.2.planned
    duplicatesDropped := totals.duplicatesDropped +
      (subjects.head?.elim 0 fun first =>
        min (entry.2.size - max ((reached (entry.1, first)).getD 0) 1) entry.2.planned) }

theorem missed_totals (pass : Pass) (group : Group) (e : Expectation) (subjects : List String)
    (report : Report) :
    (subjects.foldl (fun report subject =>
      if (Pairs.find (group, subject) pass.reached).isSome then report else report.missed e subject)
      report).toTotals =
    { report.toTotals with
      missing := report.missing +
        subjects.countP fun subject => (Pairs.find (group, subject) pass.reached).isNone } := by
  induction subjects generalizing report with
  | nil => rfl
  | cons subject rest ih =>
      rw [List.foldl_cons, ih, List.countP_cons]
      cases found : Pairs.find (group, subject) pass.reached with
      | none =>
          simp only [Option.isSome_none, Bool.false_eq_true, ↓reduceIte, Option.isNone_none,
            Report.missed, Report.example_, Totals.mk.injEq, true_and, and_true]
          omega
      | some count => simp

theorem judgeGroup_totals (pass : Pass) (report : Report) (entry : Group × Members) :
    (pass.judgeGroup report entry).toTotals =
      report.toTotals.addGroup (fun key => Pairs.find key pass.reached)
        (fun key => Pairs.find key pass.copiesPerGroup) entry := by
  obtain ⟨group, e, size, planned⟩ := entry
  have missed := missed_totals pass group e e.subjects
    { report with expected := report.expected + e.subjects.length }
  simp only [Pass.judgeGroup, Totals.addGroup, Expectation.dedupeSubject]
  generalize e.subjects.foldl _ _ = judged at missed ⊢
  by_cases repeated : 1 < e.subjects.length ∧
      (e.subjects.all fun subject => (Pairs.find (group, subject) pass.copiesPerGroup).any (1 < ·)) = true
  · simp only [repeated, and_self, ↓reduceIte]
    cases named : e.subjects with
    | nil => simp [named] at repeated
    | cons first rest =>
        rw [named] at missed
        simp only [List.head?_cons, Option.elim_some, reduceCtorEq, ↓reduceIte]
        split <;> simp [missed]
  · simp only [repeated, ↓reduceIte]
    cases named : e.subjects with
    | nil =>
        rw [named] at missed
        simp only [List.head?_nil, Option.elim_none, ↓reduceIte]
        split <;> simp [missed]
    | cons first rest =>
        rw [named] at missed
        simp only [List.head?_cons, Option.elim_some, reduceCtorEq, ↓reduceIte]
        split <;> simp [missed]

theorem judgeGroups_totals (pass : Pass) (groups : List (Group × Members)) (report : Report) :
    (groups.foldl pass.judgeGroup report).toTotals =
      groups.foldl (Totals.addGroup (fun key => Pairs.find key pass.reached)
        fun key => Pairs.find key pass.copiesPerGroup) report.toTotals := by
  induction groups generalizing report with
  | nil => rfl
  | cons entry rest ih => rw [List.foldl_cons, ih, judgeGroup_totals, List.foldl_cons]

def named (groups : List (Group × Members)) : List (Group × String) :=
  groups.flatMap fun entry => entry.2.first.subjects.map (Prod.mk entry.1)

theorem named_cons (entry : Group × Members) (rest : List (Group × Members)) :
    named (entry :: rest) = entry.2.first.subjects.map (Prod.mk entry.1) ++ named rest := by
  rw [named, List.flatMap_cons, named]

variable {reached copiesPerGroup : Group × String → Option Nat}

theorem addGroups_expected (groups : List (Group × Members)) (totals : Totals) :
    (groups.foldl (Totals.addGroup reached copiesPerGroup) totals).expected =
      totals.expected + (named groups).length := by
  induction groups generalizing totals with
  | nil => rfl
  | cons entry rest ih =>
      rw [List.foldl_cons, ih, named_cons, List.length_append, List.length_map]
      simp only [Totals.addGroup]
      omega

theorem addGroups_missing (groups : List (Group × Members)) (totals : Totals) :
    (groups.foldl (Totals.addGroup reached copiesPerGroup) totals).missing =
      totals.missing + (named groups).countP fun key => (reached key).isNone := by
  induction groups generalizing totals with
  | nil => rfl
  | cons entry rest ih =>
      rw [List.foldl_cons, ih, named_cons, List.countP_append, List.countP_map]
      simp only [Totals.addGroup, Function.comp_def]
      omega

theorem addGroups_dropped (groups : List (Group × Members)) (totals : Totals)
    (bounded : totals.duplicatesDropped ≤ totals.duplicatesPlanned) :
    (groups.foldl (Totals.addGroup reached copiesPerGroup) totals).duplicatesDropped ≤
      (groups.foldl (Totals.addGroup reached copiesPerGroup) totals).duplicatesPlanned := by
  induction groups generalizing totals with
  | nil => exact bounded
  | cons entry rest ih =>
      rw [List.foldl_cons]
      apply ih
      simp only [Totals.addGroup]
      cases entry.2.first.subjects with
      | nil => simpa using bounded
      | cons first others =>
          simp only [List.head?_cons, Option.elim_some, reduceCtorEq, ↓reduceIte]
          omega

theorem addGroups_messages (groups : List (Group × Members)) (totals : Totals) :
    (groups.foldl (Totals.addGroup reached copiesPerGroup) totals).unexpected = totals.unexpected ∧
      (groups.foldl (Totals.addGroup reached copiesPerGroup) totals).extraCopies =
        totals.extraCopies := by
  induction groups generalizing totals with
  | nil => exact ⟨rfl, rfl⟩
  | cons entry rest ih => exact ih (totals.addGroup reached copiesPerGroup entry)

theorem named_nodup (coherent : Coherent expectations) {groups : List (Group × Members)}
    (grouped : Grouped expectations groups) : (named groups).Nodup := by
  refine List.nodup_flatMap.mpr ⟨?_, ?_⟩
  · intro entry member
    have distinct := coherent.distinct _ (grouped.first entry member).1
    exact distinct.map (Prod.mk_right_injective entry.1)
  · refine (List.pairwise_map.mp grouped.distinct).imp ?_
    intro entry other differs key listed listedToo
    obtain ⟨_, _, rfl⟩ := List.mem_map.mp listed
    obtain ⟨_, _, same⟩ := List.mem_map.mp listedToo
    exact differs (congrArg Prod.fst same).symm

theorem mem_named (coherent : Coherent expectations) {groups : List (Group × Members)}
    (grouped : Grouped expectations groups) {written : List Written} {key : Group × String}
    (reached : key ∈ (arrivals expectations written).map reachedPair) : key ∈ named groups := by
  obtain ⟨arrived, member, rfl⟩ := List.mem_map.mp reached
  obtain ⟨w, _, found⟩ := List.mem_filterMap.mp member
  obtain ⟨listed, reaches, subject⟩ := (arrival_iff coherent.unique).mp found
  obtain ⟨entry, inGroups, sameGroup⟩ := List.mem_map.mp (grouped.covers _ listed)
  obtain ⟨firstListed, firstGroup⟩ := grouped.first entry inGroups
  simp only [Expectation.reaches, Bool.and_eq_true, List.contains_iff_mem] at reaches
  refine List.mem_flatMap.mpr ⟨entry, inGroups, List.mem_map.mpr ⟨arrived.2, ?_, ?_⟩⟩
  · rw [subject]
    exact coherent.alike _ listed _ firstListed (by rw [firstGroup, sameGroup]) _ reaches.1.2
  · rw [reachedPair, sameGroup]

end Groups

section Letters

variable {rendering : Rendering}

theorem judgeLetters_totals (expectations : List Expectation) (dead : List DeadLetter)
    (report : Report) :
    (dead.foldl (Report.judgeLetter rendering (byId expectations)) report).toTotals =
      { report.toTotals with
        unexpected := report.unexpected + dead.countP fun letter =>
          ((parseId letter.recordId).bind (byId expectations)).isNone
        deadLettered := report.deadLettered + dead.countP fun letter =>
          ((parseId letter.recordId).bind (byId expectations)).isSome } := by
  induction dead generalizing report with
  | nil => rfl
  | cons letter rest ih =>
      rw [List.foldl_cons, ih, List.countP_cons, List.countP_cons, Report.judgeLetter]
      cases found : (parseId letter.recordId).bind (byId expectations) with
      | none =>
          simp only [Report.example_, Option.isNone_none, Option.isSome_none, ↓reduceIte,
            Bool.false_eq_true, Totals.mk.injEq, true_and, and_true]
          omega
      | some e =>
          simp only [Report.example_, Option.isNone_some, Option.isSome_some, ↓reduceIte,
            Bool.false_eq_true, Totals.mk.injEq, true_and, and_true]
          omega

end Letters

section Judging

variable {rendering : Rendering}

theorem judge_totals (unique : (expectations.map Expectation.id).Nodup) (written : List Written)
    (dead : List DeadLetter) :
    ∃ pass : Pass,
      Tracks expectations { Totals.zero with published := expectations.length } written pass ∧
      (judge rendering expectations written dead).toTotals =
        let totals := (expectations.foldl addMember []).foldl
          (Totals.addGroup (fun key => Pairs.find key pass.reached)
            fun key => Pairs.find key pass.copiesPerGroup)
          { pass.report.toTotals with received := pass.copies.length }
        { totals with
          unexpected := totals.unexpected + dead.countP fun letter =>
            ((parseId letter.recordId).bind (byId expectations)).isNone
          deadLettered := totals.deadLettered + dead.countP fun letter =>
            ((parseId letter.recordId).bind (byId expectations)).isSome } := by
  have named : ∀ (others : List Expectation) (report : Report),
      (others.foldl (fun report e => report.modifySet e.set id) report).toTotals =
        report.toTotals := by
    intro others
    induction others with
    | nil => exact fun _ => rfl
    | cons e rest ih =>
        intro report
        rw [List.foldl_cons, ih]
        rfl
  have tracks := @observe_tracks _ rendering unique
    ⟨expectations.foldl (fun report e => report.modifySet e.set id)
      { Report.empty with published := expectations.length }, [], [], [], []⟩ ⟨rfl, rfl, rfl⟩ written
  simp only [named] at tracks
  refine ⟨_, tracks, ?_⟩
  simp only [judge, judgeWhere, List.filter_true, judgeLetters_totals, judgeGroups_totals]

theorem reached_ncard (coherent : Coherent expectations) (written : List Written) :
    {key : Group × String | ∃ w ∈ written, ∃ e ∈ expectations, e.reaches w = true ∧
      (e.group, w.subject) = key}.ncard =
        ((arrivals expectations written).map reachedPair).dedup.length := by
  have same : {key : Group × String | ∃ w ∈ written, ∃ e ∈ expectations, e.reaches w = true ∧
      (e.group, w.subject) = key} =
        (((arrivals expectations written).map reachedPair).toFinset : Set (Group × String)) := by
    ext key
    simp only [Set.mem_ofPred_eq, Finset.mem_coe, List.mem_toFinset, List.mem_map]
    constructor
    · rintro ⟨w, member, e, listed, reaches, rfl⟩
      have found := (@arrival_iff _ coherent.unique w (e, w.subject)).mpr ⟨listed, reaches, rfl⟩
      exact ⟨_, List.mem_filterMap.mpr ⟨w, member, found⟩, rfl⟩
    · rintro ⟨arrived, member, rfl⟩
      obtain ⟨w, listed, found⟩ := List.mem_filterMap.mp member
      obtain ⟨isListed, reaches, subject⟩ := (arrival_iff coherent.unique).mp found
      exact ⟨w, listed, arrived.1, isListed, reaches, by rw [reachedPair, subject]⟩
  rw [same, Set.ncard_coe_finset, List.card_toFinset]

theorem Tracks.reached_iff {start : Totals} {seen : List Written} {pass : Pass}
    (tracks : Tracks expectations start seen pass) (key : Group × String) :
    (Pairs.find key pass.reached).isSome = true ↔
      key ∈ (arrivals expectations seen).map reachedPair := by
  rw [tracks.reached.isSome_iff]
  simp only [List.mem_map, List.mem_dedup]

theorem named_reached (coherent : Coherent expectations) {start : Totals} {seen : List Written}
    {pass : Pass} (tracks : Tracks expectations start seen pass) :
    (named (expectations.foldl addMember [])).countP
        (fun key => (Pairs.find key pass.reached).isSome) =
      ((arrivals expectations seen).map reachedPair).dedup.length := by
  have grouped := grouped_all expectations
  have same : ((named (expectations.foldl addMember [])).filter fun key =>
      (Pairs.find key pass.reached).isSome).Perm
        ((arrivals expectations seen).map reachedPair).dedup := by
    rw [List.perm_ext_iff_of_nodup ((named_nodup coherent grouped).filter _) (List.nodup_dedup _)]
    intro key
    rw [List.mem_filter, tracks.reached_iff, List.mem_dedup]
    constructor
    · exact And.right
    · exact fun reached => ⟨mem_named coherent grouped reached, reached⟩
  rw [List.countP_eq_length_filter, same.length_eq]

theorem places_perm {written others : List Written} (perm : written.Perm others) (place : Place) :
    (places expectations written).count place = (places expectations others).count place := by
  have unexpected : (places expectations written).count .unexpected =
      (places expectations others).count .unexpected := by
    rw [count_unexpected, count_unexpected, perm.countP_eq]
  have first : (places expectations written).count .first =
      (places expectations others).count .first := by
    rw [count_first, count_first]
    exact ((perm.filterMap _).map reachedPair).dedup.length_eq
  have all := Place.count_length (places expectations written)
  have allOthers := Place.count_length (places expectations others)
  rw [length_places] at all allOthers
  have lengths := perm.length_eq
  cases place with
  | unexpected => exact unexpected
  | first => exact first
  | extra => omega

theorem judge_perm (unique : (expectations.map Expectation.id).Nodup) {written others : List Written}
    (perm : written.Perm others) (dead : List DeadLetter) :
    (judge rendering expectations others dead).toTotals =
      (judge rendering expectations written dead).toTotals := by
  obtain ⟨pass, tracks, totals⟩ := @judge_totals _ rendering unique written dead
  obtain ⟨otherPass, otherTracks, otherTotals⟩ := @judge_totals _ rendering unique others dead
  have arrived : (arrivals expectations written).Perm (arrivals expectations others) :=
    perm.filterMap _
  have reports : otherPass.report.toTotals = pass.report.toTotals := by
    rw [tracks.totals, otherTracks.totals, places_perm perm, places_perm perm]
  have lengths : otherPass.copies.length = pass.copies.length := by
    rw [tracks.copies.length, otherTracks.copies.length]
    exact ((arrived.map copyKey).dedup.length_eq).symm
  have reached : (fun key => Pairs.find key otherPass.reached) =
      fun key => Pairs.find key pass.reached := by
    funext key
    exact (tracks.reached.agree otherTracks.reached (arrived.dedup.map reachedPair) key).symm
  have copied : (fun key => Pairs.find key otherPass.copiesPerGroup) =
      fun key => Pairs.find key pass.copiesPerGroup := by
    funext key
    exact (tracks.copiesPerGroup.agree otherTracks.copiesPerGroup (arrived.map reachedPair) key).symm
  rw [totals, otherTotals, reports, lengths, reached, copied]

/-- Each written message has one place: it is unexpected, the first arrival of its group on its
subject, or an extra copy. What is expected and not missing is what some id of the group reached,
no more duplicates are dropped than were planned, and none of this depends on the order. -/
theorem judge_conserves (rendering : Rendering) {expectations : List Expectation}
    (coherent : Coherent expectations) (written : List Written) (dead : List DeadLetter) :
    let report := judge rendering expectations written dead
    (places expectations written).length = written.length ∧
    report.unexpected = (places expectations written).count .unexpected +
      dead.countP (fun letter => ((parseId letter.recordId).bind (byId expectations)).isNone) ∧
    report.extraCopies = (places expectations written).count .extra ∧
    report.missing ≤ report.expected ∧
    report.expected - report.missing = (places expectations written).count .first ∧
    report.expected - report.missing =
      {key : Group × String | ∃ w ∈ written, ∃ e ∈ expectations, e.reaches w = true ∧
        (e.group, w.subject) = key}.ncard ∧
    report.duplicatesDropped ≤ report.duplicatesPlanned ∧
    ∀ others, written.Perm others →
      (judge rendering expectations others dead).toTotals = report.toTotals := by
  intro report
  obtain ⟨pass, tracks, totals⟩ := @judge_totals _ rendering coherent.unique written dead
  have unexpected : report.unexpected = (places expectations written).count .unexpected +
      dead.countP (fun letter => ((parseId letter.recordId).bind (byId expectations)).isNone) := by
    rw [congrArg Totals.unexpected totals]
    simp only [addGroups_messages, tracks.totals, Totals.zero, Nat.zero_add]
  have extra : report.extraCopies = (places expectations written).count .extra := by
    rw [congrArg Totals.extraCopies totals]
    simp only [addGroups_messages, tracks.totals, Totals.zero, Nat.zero_add]
  have expected : report.expected = (named (expectations.foldl addMember [])).length := by
    rw [congrArg Totals.expected totals]
    simp only [addGroups_expected, tracks.totals, Totals.zero, Nat.zero_add]
  have missing : report.missing = (named (expectations.foldl addMember [])).countP
      fun key => (Pairs.find key pass.reached).isNone := by
    rw [congrArg Totals.missing totals]
    simp only [addGroups_missing, tracks.totals, Totals.zero, Nat.zero_add]
  have dropped : report.duplicatesDropped ≤ report.duplicatesPlanned := by
    rw [congrArg Totals.duplicatesDropped totals, congrArg Totals.duplicatesPlanned totals]
    apply addGroups_dropped
    rw [tracks.totals]
    exact Nat.le_refl 0
  have split_ : (named (expectations.foldl addMember [])).length = _ :=
    List.length_eq_countP_add_countP fun key => (Pairs.find key pass.reached).isSome
  simp only [Bool.not_eq_true, Option.isSome_eq_false_iff, Bool.decide_eq_true] at split_
  rw [named_reached coherent tracks] at split_
  refine ⟨length_places written, unexpected, extra, ?_, ?_, ?_, dropped,
    fun others perm => judge_perm coherent.unique perm dead⟩
  · omega
  · rw [count_first]
    omega
  · rw [reached_ncard coherent]
    omega

def twoCopies : List Expectation := [
  ⟨1, "Linux", "linux", 7, 0, [mainSubject, "processed.loghub.audit"], none, [], ⟨[], []⟩, ⟨[]⟩⟩,
  ⟨2, "Linux", "linux", 7, 0, [mainSubject, "processed.loghub.audit"], some .dedupe, [], ⟨[], []⟩, ⟨[]⟩⟩]

/-- Both ids reach the main subject, and a message under another tenant does not count. -/
def raced : List Written := [
  ⟨mainSubject, some "2", some "linux", []⟩, ⟨mainSubject, some "1", some "linux", []⟩,
  ⟨"processed.loghub.audit", some "1", some "mac", []⟩]

theorem twoCopies_coherent : Coherent twoCopies := by
  have distinct : ([mainSubject, "processed.loghub.audit"] : List String).Nodup := by decide
  refine ⟨by decide, ?_, ?_⟩
  · intro e member
    simp only [twoCopies, List.mem_cons, List.not_mem_nil, or_false] at member
    rcases member with rfl | rfl
    · exact distinct
    · exact distinct
  · intro e member other otherMember _ subject
    simp only [twoCopies, List.mem_cons, List.not_mem_nil, or_false] at member otherMember
    rcases member with rfl | rfl <;> rcases otherMember with rfl | rfl <;> exact id

theorem judge_conserves_raced :
    places twoCopies raced = [.first, .extra, .unexpected] ∧
      (judge ⟨fun _ => "", fun _ => ""⟩ twoCopies raced []).expected = 2 ∧
      (judge ⟨fun _ => "", fun _ => ""⟩ twoCopies raced []).expected -
        (judge ⟨fun _ => "", fun _ => ""⟩ twoCopies raced []).missing = 1 := by
  have placed : places twoCopies raced = [.first, .extra, .unexpected] := by decide +kernel
  refine ⟨placed, by decide +kernel, ?_⟩
  rw [(judge_conserves _ twoCopies_coherent raced []).2.2.2.2.1, placed]
  rfl

end Judging

end FusionPipeline.Harness
