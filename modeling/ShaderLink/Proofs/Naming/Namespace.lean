import Mathlib.Data.List.Nodup
import Mathlib.Data.List.Perm.Subperm
import Std.Data.String.ToNat
import ShaderLink.Naming.Namespace
import ShaderLink.Proofs.Outcome

/-!
# Free names

A name that a namespace suggests is free (`isFree_suggest`), so claiming it does not fail. The
search behind a stem tries one name more than can be taken, all of them different.
-/

namespace ShaderLink.Namespace

variable {ns ns' : Namespace} {name : String} {id : ObjectId}

theorem isFree_iff : ns.isFree name = true ↔
    ns.claimed[name]? = none ∧ name ∉ ns.reserved ∧ ns.isKeyword name = false := by
  rw [isFree, Std.ExtTreeMap.contains_eq_isSome_getElem?]
  cases ns.claimed[name]? <;> simp

/-- A name that is not free is one of those that can be taken. -/
theorem mem_taken_of_isFree_eq_false (h : ns.isFree name = false) :
    name ∈ ns.claimed.keys ++ ns.reserved ++ Glsl.reservedWords := by
  simp only [List.mem_append, Std.ExtTreeMap.mem_keys]
  by_contra hno
  simp only [not_or] at hno
  -- what nobody has claimed, no code takes and no language reserves would be free
  have hkeyword : ns.isKeyword name = false := by
    simp [isKeyword, Glsl.isReserved, hno.2]
  have hfree : ns.isFree name = true :=
    isFree_iff.2 ⟨Std.ExtTreeMap.getElem?_eq_none hno.1.1, hno.1.2, hkeyword⟩
  rw [h] at hfree
  cases hfree

theorem numbered_injective (stem : String) {j k : Nat} (h : numbered stem j = numbered stem k) :
    j = k := by
  unfold numbered at h
  exact Nat.repr_injective (String.append_right_inj _ |>.1 h)

/-- **The search ends**: one of the numbers tried is free. -/
theorem exists_isFree_numbered (ns : Namespace) (stem : String) :
    ∃ k < ns.size + 1, ns.isFree (numbered stem (k + 1)) = true := by
  by_contra hno
  -- otherwise all the numbers tried are names that can be taken, and they differ
  have hnodup : ((List.range (ns.size + 1)).map fun k => numbered stem (k + 1)).Nodup :=
    List.nodup_range.map fun j k h => Nat.succ.inj (numbered_injective stem h)
  have hsub : ((List.range (ns.size + 1)).map fun k => numbered stem (k + 1)) ⊆
      ns.claimed.keys ++ ns.reserved ++ Glsl.reservedWords := by
    intro name hname
    obtain ⟨k, hk, rfl⟩ := List.mem_map.1 hname
    refine mem_taken_of_isFree_eq_false (Bool.eq_false_iff.2 fun hfree => hno ⟨k, ?_, hfree⟩)
    exact List.mem_range.1 hk
  -- one name more is tried than there are names that can be taken
  have hlen := (List.subperm_of_subset hnodup hsub).length_le
  simp only [List.length_map, List.length_range, List.length_append,
    Std.ExtTreeMap.length_keys, size] at hlen
  omega

theorem isFree_firstNumbered (ns : Namespace) (base : String) :
    ns.isFree (ns.firstNumbered base) = true := by
  unfold firstNumbered
  dsimp only
  obtain ⟨k, hk, hfree⟩ := exists_isFree_numbered ns (String.ofList (stem base.toList))
  cases hfind : ((List.range (ns.size + 1)).map fun k =>
      numbered (String.ofList (stem base.toList)) (k + 1)).find? ns.isFree with
  | none =>
    have := List.find?_eq_none.1 hfind _ (List.mem_map.2 ⟨k, List.mem_range.2 hk, rfl⟩)
    exact absurd hfree this
  | some name => exact List.find?_some hfind

/-- **What is suggested is free.** -/
theorem isFree_suggest (ns : Namespace) (style : NamingStyle) (base : String) (id : ObjectId) :
    ns.isFree (ns.suggest style base id) = true := by
  unfold suggest
  split
  · next h => exact h.2
  · split
    · assumption
    · exact isFree_firstNumbered ns base

/-- A name can be claimed if no other object has claimed it. -/
theorem claim_eq_ok_iff : ns.claim name id = .ok ns' ↔
    (ns.claimed[name]? = none ∨ ns.claimed[name]? = some id) ∧
      ns' = { ns with claimed := ns.claimed.insert name id } := by
  unfold claim
  cases hc : ns.claimed[name]? with
  | none => simp [eq_comm]
  | some other => by_cases ho : other = id <;> simp [ho, eq_comm (a := ns')]

/-- Otherwise another object has claimed it. -/
theorem claim_eq_error {e : LinkError} (h : ns.claim name id = .error e) :
    ∃ other, ns.claimed[name]? = some other ∧ other ≠ id := by
  cases hc : ns.claimed[name]? with
  | none =>
    rw [claim_eq_ok_iff.2 ⟨.inl hc, rfl⟩] at h
    cases h
  | some other =>
    refine ⟨other, rfl, ?_⟩
    rintro rfl
    rw [claim_eq_ok_iff.2 ⟨.inr hc, rfl⟩] at h
    cases h

end ShaderLink.Namespace
