import ShaderLink.Object.Id
import Std.Data.ExtTreeSet

/-!
# Who refers to whom

`Referrers` records, for every object, the objects that refer to it, once for each reference
(`Referrers.count`). The record outlives the object it is about: an object that is gone may still
be referred to.
-/

namespace ShaderLink

/-- For each object the objects that refer to it, repeated as often as they do. -/
structure Referrers where
  records : Std.ExtTreeMap ObjectId (List ObjectId)
deriving DecidableEq

namespace Referrers

/-- Nothing refers to anything. -/
def empty : Referrers := ⟨∅⟩

/-- The references to an object, one entry for each. -/
def entries (r : Referrers) (target : ObjectId) : List ObjectId :=
  (r.records[target]?).getD []

/-- How often one object refers to another. -/
def count (r : Referrers) (target source : ObjectId) : Nat :=
  (r.entries target).count source

/-- The objects that refer to an object, ascending. -/
def sources (r : Referrers) (target : ObjectId) : List ObjectId :=
  (Std.ExtTreeSet.ofList (r.entries target)).toList

/-- One more reference. -/
def add (r : Referrers) (target source : ObjectId) : Referrers :=
  ⟨r.records.insert target (source :: r.entries target)⟩

/-- One reference less, if there is one. -/
def remove (r : Referrers) (target source : ObjectId) : Referrers :=
  if source ∈ r.entries target then
    ⟨r.records.insert target ((r.entries target).erase source)⟩
  else r

/-- All objects that refer to something. -/
def allSources (r : Referrers) : List ObjectId :=
  r.records.toList.flatMap (·.2)

/-! ### Counting -/

theorem entries_insert (r : Referrers) (target other : ObjectId) (l : List ObjectId) :
    (Referrers.mk (r.records.insert target l)).entries other =
      if target = other then l else r.entries other := by
  by_cases h : target = other
  · subst h
    simp [entries]
  · simp [entries, Std.ExtTreeMap.getElem?_insert, h]

/-- Adding a reference changes one count, by one. -/
theorem count_add (r : Referrers) (t s target source : ObjectId) :
    (r.add t s).count target source =
      r.count target source + if t = target ∧ s = source then 1 else 0 := by
  by_cases h : t = target
  · subst h
    by_cases hs : s = source
    · subst hs
      simp [count, add, entries_insert]
    · simp [count, add, entries_insert, hs]
  · simp [count, add, entries_insert, h]

/-- Removing a reference changes one count, by one, and none below zero. -/
theorem count_remove (r : Referrers) (t s target source : ObjectId) :
    (r.remove t s).count target source =
      r.count target source - if t = target ∧ s = source then 1 else 0 := by
  unfold remove
  split
  · by_cases h : t = target
    · subst h
      by_cases hs : s = source
      · subst hs
        simp [count, entries_insert]
      · simp [count, entries_insert, List.count_erase, hs]
    · simp [count, entries_insert, h]
  · rename_i hm
    by_cases h : t = target ∧ s = source
    · obtain ⟨rfl, rfl⟩ := h
      simp [count, List.count_eq_zero_of_not_mem hm]
    · simp [h]

/-- The sources of an object are those that refer to it at all. -/
theorem mem_sources_iff (r : Referrers) (target source : ObjectId) :
    source ∈ r.sources target ↔ 0 < r.count target source := by
  simp [sources, count, List.count_pos_iff]

end Referrers

end ShaderLink
