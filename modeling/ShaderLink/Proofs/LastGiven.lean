import Mathlib.Data.List.Induction
import Mathlib.Data.List.Nodup

/-!
# What was last given for each key

Values may be given for a key any number of times. What stands in the end is one pair for each key,
in the order in which the keys were first given, with the value that was given last (`lastGiven`).

A list of such pairs is kept up to date by putting each value in the place of the one before it, or
at the end for a key that is new (`put`): giving one more value is one such step
(`lastGiven_concat`), whatever was given before.
-/

namespace ShaderLink

/-- Taking out repetitions leaves none. -/
theorem nodup_eraseDups {α : Type} [BEq α] [LawfulBEq α] (l : List α) : l.eraseDups.Nodup := by
  induction h : l.length using Nat.strongRecOn generalizing l with
  | ind n ih =>
    cases l with
    | nil => simp
    | cons a l =>
      rw [List.eraseDups_cons, List.nodup_cons]
      -- the rest is not a sublist that structural induction reaches, only a shorter list
      refine ⟨by simp, ih _ ?_ _ rfl⟩
      have := List.length_filter_le (fun b => !b == a) l
      rw [List.length_cons] at h
      omega

/-- One more thing at the end is kept if it is not there yet. -/
theorem eraseDups_concat {α : Type} [DecidableEq α] (l : List α) (a : α) :
    (l ++ [a]).eraseDups = if a ∈ l then l.eraseDups else l.eraseDups ++ [a] := by
  rw [List.eraseDups_append]
  by_cases ha : a ∈ l <;> simp [List.removeAll, List.eraseDups_cons, ha]

variable {κ ν : Type} [DecidableEq κ] {k : κ} {v : ν} {l : List (κ × ν)}

/-- The pairs with another value for one of the keys, or with one pair more. -/
def put (k : κ) (v : ν) : List (κ × ν) → List (κ × ν)
  | [] => [(k, v)]
  | p :: l => if p.1 = k then (p.1, v) :: l else p :: put k v l

/-- Each key that a value was given for, where it was first given, with the value given last. -/
def lastGiven (given : List (κ × ν)) : List (κ × ν) :=
  (given.map (·.1)).eraseDups.filterMap fun k => (given.reverse.lookup k).map (k, ·)

theorem put_of_notMem (h : k ∉ l.map (·.1)) (v : ν) : put k v l = l ++ [(k, v)] := by
  induction l with
  | nil => rfl
  | cons p l ih =>
    obtain ⟨hp, hl⟩ := not_or.1 (mt List.mem_cons.2 h)
    rw [put, if_neg (Ne.symm hp), ih hl, List.cons_append]

theorem keys_put (k : κ) (v : ν) (l : List (κ × ν)) :
    (put k v l).map (·.1) = if k ∈ l.map (·.1) then l.map (·.1) else l.map (·.1) ++ [k] := by
  induction l with
  | nil => simp [put]
  | cons p l ih =>
    by_cases hp : p.1 = k
    · simp [put, hp]
    · rw [put, if_neg hp, List.map_cons, List.map_cons, ih]
      by_cases hk : k ∈ l.map (·.1)
      · rw [if_pos hk, if_pos (List.mem_cons_of_mem _ hk)]
      · rw [if_neg hk, if_neg (by simpa [Ne.symm hp] using hk), List.cons_append]

theorem nodup_keys_put (h : (l.map (·.1)).Nodup) (k : κ) (v : ν) :
    ((put k v l).map (·.1)).Nodup := by
  rw [keys_put]
  split
  · exact h
  · next hk =>
    rw [← List.concat_eq_append, List.nodup_concat]
    exact ⟨hk, h⟩

/-- A value that is there already changes nothing. -/
theorem put_of_find? {p : κ × ν} (h : l.find? (·.1 == k) = some p) : put k p.2 l = l := by
  induction l with
  | nil => cases h
  | cons q l ih =>
    by_cases hq : q.1 = k
    · obtain rfl : q = p := by simpa [List.find?_cons, hq] using h
      rw [put, if_pos hq]
    · rw [put, if_neg hq, ih (by simpa [List.find?_cons, hq] using h)]

/-- Putting a value changes what is found for one key. -/
theorem put_filterMap {ks : List κ} (hks : ks.Nodup) {f : κ → Option ν}
    (hf : ∀ j ∈ ks, (f j).isSome) (k : κ) (v : ν) :
    put k v (ks.filterMap fun j => (f j).map (j, ·)) =
      (if k ∈ ks then ks else ks ++ [k]).filterMap fun j =>
        (if j = k then some v else f j).map (j, ·) := by
  induction ks with
  | nil => simp [put]
  | cons j ks ih =>
    obtain ⟨hj, hks⟩ := List.nodup_cons.1 hks
    obtain ⟨hfj, hf⟩ := List.forall_mem_cons.1 hf
    obtain ⟨w, hw⟩ := Option.isSome_iff_exists.1 hfj
    by_cases hjk : j = k
    · subst hjk
      have hrest : (ks.filterMap fun i => (if i = j then some v else f i).map (i, ·)) =
          ks.filterMap fun i => (f i).map (i, ·) :=
        List.filterMap_congr fun i hi => by rw [if_neg (ne_of_mem_of_not_mem hi hj)]
      simp [put, hw, hrest]
    · have hmem : (if k ∈ j :: ks then j :: ks else j :: ks ++ [k]) =
          j :: if k ∈ ks then ks else ks ++ [k] := by
        by_cases hk : k ∈ ks <;> simp [hk, Ne.symm hjk]
      rw [hmem, List.filterMap_cons, List.filterMap_cons, if_neg hjk, hw, ← ih hks hf]
      simp [put, hjk]

/-- **One more value is put where the one before it stands**, or at the end. -/
theorem lastGiven_concat (given : List (κ × ν)) (k : κ) (v : ν) :
    lastGiven (given ++ [(k, v)]) = put k v (lastGiven given) := by
  have hfound : ∀ j ∈ (given.map (·.1)).eraseDups, (given.reverse.lookup j).isSome := by
    intro j hj
    obtain ⟨p, hp, rfl⟩ := List.mem_map.1 (List.mem_eraseDups.1 hj)
    exact List.lookup_isSome_iff.2 ⟨p, List.mem_reverse.2 hp, beq_self_eq_true _⟩
  have hkeys : ((given ++ [(k, v)]).map (·.1)).eraseDups =
      if k ∈ (given.map (·.1)).eraseDups then (given.map (·.1)).eraseDups
      else (given.map (·.1)).eraseDups ++ [k] := by
    rw [List.map_append, List.map_singleton, eraseDups_concat]
    simp only [List.mem_eraseDups]
  have hlookup : ∀ j, (given ++ [(k, v)]).reverse.lookup j =
      if j = k then some v else given.reverse.lookup j := by
    intro j
    rw [List.reverse_append, List.reverse_singleton, List.singleton_append, List.lookup_cons]
    by_cases hj : j = k
    · simp [hj]
    · rw [if_neg hj, beq_eq_false_iff_ne.2 hj]
  rw [lastGiven, lastGiven, put_filterMap (nodup_eraseDups _) hfound, hkeys]
  simp only [hlookup]

/-- What is last given was given. -/
theorem mem_of_mem_lastGiven {given : List (κ × ν)} {p : κ × ν}
    (h : p ∈ lastGiven given) : p ∈ given := by
  obtain ⟨k, -, hk⟩ := List.mem_filterMap.1 h
  obtain ⟨v, hv, rfl⟩ := Option.map_eq_some_iff.1 hk
  obtain ⟨before, after, hsplit, -⟩ := List.lookup_eq_some_iff.1 hv
  exact List.mem_reverse.1 (hsplit ▸ List.mem_append_right _ List.mem_cons_self)

theorem lastGiven_ne_nil {given : List (κ × ν)} (h : given ≠ []) : lastGiven given ≠ [] := by
  obtain rfl | ⟨rest, p, rfl⟩ := given.eq_nil_or_concat
  · exact absurd rfl h
  · rw [List.concat_eq_append, lastGiven_concat]
    cases lastGiven rest with
    | nil => exact List.cons_ne_nil _ _
    | cons q l =>
      rw [put]
      split <;> exact List.cons_ne_nil _ _

/-- **What is given is put in place one by one.** -/
theorem lastGiven_append (given more : List (κ × ν)) :
    lastGiven (given ++ more) = more.foldl (fun l p => put p.1 p.2 l) (lastGiven given) := by
  induction more generalizing given with
  | nil => rw [List.append_nil, List.foldl_nil]
  | cons p more ih => rw [← List.singleton_append, ← List.append_assoc, ih, lastGiven_concat]; rfl

/-- Where no key is given twice, everything stands as it was given. -/
theorem lastGiven_of_nodup (h : (l.map (·.1)).Nodup) : lastGiven l = l := by
  induction l using List.reverseRecOn with
  | nil => rfl
  | append_singleton l p ih =>
    rw [List.map_append, List.map_singleton, ← List.concat_eq_append] at h
    obtain ⟨hp, hl⟩ := (List.nodup_concat _ _).1 h
    exact (lastGiven_concat l p.1 p.2).trans (by rw [ih hl, put_of_notMem hp])

end ShaderLink
