import Timetable.Proofs.Machine.Word
import Timetable.Proofs.Rule.Ranges
import Timetable.Proofs.Rule.Units

/-!
# Set positions with machine numbers

A set position is looked up as a place in the list of a period's datetimes.  The place is within
the list, and the length of the list fits a word, because a period has at most as many datetimes
as the calendar has seconds: `length_wholeOffer_le`.  So `selectPositions` does not break down and
takes the members that `Position.select` keeps.
-/

namespace Timetable
namespace Machine

open Civil

/-- The index of a position in a list of some length, counted from zero. -/
def positionIndex (length p : Int) : Machine Int :=
  if 0 < p then Word.signed64.sub p 1 else Word.signed64.add length p

/-- The member of a list of some length at a position, if the list is that long. -/
def pickPosition (members : List DateTime) (length p : Int) : Machine (List DateTime) := do
  let index ← positionIndex length p
  if 0 ≤ index ∧ index < length then
    let place ← Word.unsigned64.cast index
    return [← lookUp members place]
  else
    return []

/-- The datetimes at the given positions, in order and without repetitions; all datetimes if
there are no positions. -/
def selectPositions (candidates : List DateTime) (positions : List Int) :
    Machine (List DateTime) :=
  let members := DateTime.ascending candidates
  if positions.isEmpty then
    return members
  else do
    let length ← Word.signed64.cast members.length
    let picked ← positions.flatMapM (pickPosition members length)
    return DateTime.ascending picked

variable {members : List DateTime}

/-- A position picks the member whose place it names. -/
theorem gathers_pickPosition (hlength : members.length ≤ 1000000000000) {p : Int}
    (hposition : -366 ≤ p ∧ p ≤ 366 ∧ p ≠ 0) :
    Gathers (pickPosition members members.length p) fun t => ∃ i, members[i]? = some t ∧
      (Position.ofIndex (i + 1) members.length).isNamedBy p = true := by
  -- From the front or from the back, the index is the place that the position names.
  obtain ⟨index, hindex, hplace⟩ : ∃ index, positionIndex members.length p = pure index ∧
      ∀ i : Nat, i < members.length →
        ((Position.ofIndex (i + 1) members.length).isNamedBy p = true ↔ index = i) := by
    unfold positionIndex
    split
    · refine ⟨_, Word.sub_of_holds (Word.holds_signed64_iff.mpr (by omega)), fun i hi => ?_⟩
      rw [Position.isNamedBy_ofIndex_iff hi]
      omega
    · refine ⟨_, Word.add_of_holds (Word.holds_signed64_iff.mpr (by omega)), fun i hi => ?_⟩
      rw [Position.isNamedBy_ofIndex_iff hi]
      omega
  rw [pickPosition, hindex, pure_bind]
  split
  next hinside =>
    obtain ⟨t, ht⟩ : ∃ t, members[index.toNat]? = some t :=
      ⟨_, List.getElem?_eq_getElem (by omega)⟩
    rw [Word.cast_of_holds (Word.holds_unsigned64_iff.mpr (by omega)), pure_bind, lookUp, ht]
    refine gathers_pure fun u => ?_
    rw [List.mem_singleton]
    constructor
    · rintro rfl
      exact ⟨index.toNat, ht, (hplace _ (by omega)).mpr (by omega)⟩
    · rintro ⟨i, hi, hname⟩
      obtain ⟨hlt, -⟩ := List.getElem?_eq_some_iff.mp hi
      obtain rfl := (hplace i hlt).mp hname
      rw [Int.toNat_natCast, hi] at ht
      exact Option.some.inj ht
  next houtside =>
    refine gathers_pure fun u => ?_
    simp only [List.not_mem_nil, false_iff, not_exists, not_and]
    intro i hi hname
    obtain ⟨hlt, -⟩ := List.getElem?_eq_some_iff.mp hi
    have hindex := (hplace i hlt).mp hname
    omega

theorem selectPositions_eq {candidates : List DateTime} {positions : List Int}
    (hascending : DateTime.ascending candidates = members)
    (hlength : members.length ≤ 1000000000000)
    (hpositions : ∀ p ∈ positions, -366 ≤ p ∧ p ≤ 366 ∧ p ≠ 0) :
    selectPositions candidates positions = pure (Position.select positions members) := by
  unfold selectPositions
  rw [hascending]
  dsimp only
  split
  next hempty => rw [Position.select, if_pos hempty]
  next hne =>
    obtain ⟨picked, hpicked, hmem⟩ := gathers_flatMapM (f := pickPosition members members.length)
      fun p hp => gathers_pickPosition hlength (hpositions p hp)
    rw [Word.cast_of_holds (Word.holds_signed64_iff.mpr (by omega)), pure_bind, hpicked,
      pure_bind]
    congr 1
    have hmembers : members.Pairwise (· < ·) :=
      hascending ▸ DateTime.ascending_pairwise_lt candidates
    -- Both lists ascend, so the order in which the positions are written does not matter.
    apply (DateTime.ascending_pairwise_lt _).eq_of_mem_iff
      (hmembers.sublist (Position.select_sublist positions members))
    intro t
    rw [DateTime.mem_ascending, hmem, Position.mem_select_iff]
    rw [List.isEmpty_iff] at hne
    constructor
    · rintro ⟨p, hp, i, hi, hname⟩
      exact ⟨i, hi, .inr ⟨p, hp, hname⟩⟩
    · rintro ⟨i, hi, hname⟩
      obtain ⟨p, hp, hname⟩ := hname.resolve_left hne
      exact ⟨p, hp, i, hi, hname⟩

/-- A period has at most as many datetimes as the calendar has seconds. -/
theorem length_wholeOffer_le (r : Rule) (start : DateTime) (k : Nat) :
    (r.wholeOffer start k).length ≤ 1000000000000 := by
  -- All datetimes of a period have the start's nanoseconds.
  have hnano {t : DateTime} (ht : t ∈ r.wholeOffer start k) :
      t.time.nanosecond = start.time.nanosecond := by
    obtain ⟨-, -, -, -, htime⟩ := Rule.mem_wholeOffer_iff.mp ht
    simp only [Rule.admitsTime, Bool.and_eq_true, decide_eq_true_eq] at htime
    exact htime.2
  let second (t : DateTime) : Nat := (t.wholeSeconds + 400000000000).toNat
  have hinside (t : DateTime) : 0 ≤ t.wholeSeconds + 400000000000 ∧
      t.wholeSeconds + 400000000000 < 1000000000000 := by
    have hfirst := t.date.first_le
    have hlast := t.date.le_last
    have hlt := t.time.secondOfDay_lt
    rw [DateTime.wholeSeconds]
    omega
  have hnodup : ((r.wholeOffer start k).map second).Nodup := by
    refine List.Nodup.map_on (fun t ht u hu heq => ?_) ((r.wholeOffer_ascends start k).imp ne_of_lt)
    have ht' := hinside t
    have hu' := hinside u
    refine DateTime.ext_wholeSeconds ?_ ((hnano ht).trans (hnano hu).symm)
    simp only [second] at heq
    omega
  have hsubset : (r.wholeOffer start k).map second ⊆ List.range 1000000000000 := by
    intro n hn
    obtain ⟨t, -, rfl⟩ := List.mem_map.mp hn
    have ht := hinside t
    rw [List.mem_range]
    simp only [second]
    omega
  have hle := (List.subperm_of_subset hnodup hsubset).length_le
  rwa [List.length_map, List.length_range] at hle

end Machine
end Timetable
