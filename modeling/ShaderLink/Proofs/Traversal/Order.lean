import Mathlib.Data.List.Nodup
import ShaderLink.Closure.Cycle
import ShaderLink.Proofs.Traversal.Leaving

/-!
# No witness, no cycle

Where `cycleWitness?` finds nothing the nodes can be **ranked**: every step along a successor goes
up (`exists_rank_of_cycleWitness?_eq_none`). The rank is the position in the reversed leaving order,
the very order that the search for a late edge goes through, so that nothing has to be known about
the leaving order itself except that it misses no node.

The other way round, things that nothing leads back from can be ranked by how many lead to them
(`exists_rank_of_irreflexive`), and where they are ranked there is no witness
(`cycleWitness?_eq_none`). This needs to know of the leaving order that nothing is left before a
successor of it.
-/

namespace ShaderLink.Traversal

open Relation

variable {α : Type} [DecidableEq α] {next : α → List α} {nodes starts : List α}

/-- Where no edge is late, a predecessor has been gone through or comes earlier. -/
theorem lateEdge?_eq_none {before rest : List α} (h : lateEdge? next nodes before rest = none)
    {a p : α} (ha : a ∈ rest) (hp : p ∈ nodes) (hpa : a ∈ next p) (hne : p ≠ a) :
    p ∈ before ∨ rest.idxOf p < rest.idxOf a := by
  -- along the order, what has been gone through grows by one node at a time
  induction rest generalizing before with
  | nil => cases ha
  | cons b rest ih =>
    rw [lateEdge?] at h
    split at h
    · cases h
    · next hnone =>
      by_cases hab : a = b
      · -- at `a` itself, a predecessor that was not gone through would be a witness
        subst hab
        have := List.find?_eq_none.1 hnone p hp
        simp only [decide_eq_true_eq, not_and] at this
        exact Or.inl (by_contra fun hb => this hne hb hpa)
      · have ha : a ∈ rest := (List.mem_cons.1 ha).resolve_left hab
        have hba : ¬ b = a := fun e => hab e.symm
        by_cases hbp : b = p
        · subst hbp
          exact Or.inr (by simp [hba])
        · obtain hb | hlt := ih h ha
          · exact Or.inl ((List.mem_cons.1 hb).resolve_left (Ne.symm hbp))
          · exact Or.inr (by simpa [List.idxOf_cons, hba, hbp] using hlt)

/-- **No witness, no cycle.** The nodes can be ranked so that successors rank higher. -/
theorem exists_rank_of_cycleWitness?_eq_none (h : cycleWitness? next nodes starts = none) :
    ∃ rank : α → Nat, ∀ p ∈ nodes, ∀ a ∈ next p, a ∈ starts → rank p < rank a := by
  unfold cycleWitness? at h
  split at h
  · cases h
  · next hself =>
    refine ⟨(postorder next starts starts).reverse.idxOf, fun p hp a hpa ha => ?_⟩
    have hpre : a ∈ preorder next starts starts := root_mem_preorder ha ha
    have hpost : a ∈ (postorder next starts starts).reverse :=
      List.mem_reverse.2 (mem_postorder_iff_mem_preorder.2 hpre)
    have hne : p ≠ a := by
      rintro rfl
      simpa [hpa] using List.find?_eq_none.1 hself p hpre
    exact (lateEdge?_eq_none h hpost hp hpa hne).resolve_left (by simp)

/-! ### No cycle, no witness -/

omit [DecidableEq α] in
/-- A weaker test keeps more of a list that has something to tell the tests apart. -/
theorem length_filter_lt {l : List α} {p q : α → Bool} (hpq : ∀ a, p a = true → q a = true) {a : α}
    (ha : a ∈ l) (hq : q a = true) (hp : p a ≠ true) :
    (l.filter p).length < (l.filter q).length := by
  have hsub : (l.filter p).Sublist (l.filter q) := List.monotone_filter_right l hpq
  -- were there as many, `a` would be among those that pass the stronger test
  refine Nat.lt_of_le_of_ne hsub.length_le fun heq => hp ?_
  have hmem : a ∈ l.filter q := List.mem_filter.2 ⟨ha, hq⟩
  rw [← hsub.eq_of_length heq] at hmem
  exact (List.mem_filter.1 hmem).2

omit [DecidableEq α] in
/-- **No cycle, a ranking**: a thing ranks as high as things lead to it. All that lead anywhere are
in some list. -/
theorem exists_rank_of_irreflexive {l : List α} (hl : ∀ a, ∀ b ∈ next a, a ∈ l)
    (h : ∀ a, ¬ TransGen (Edge next) a a) :
    ∃ rank : α → Nat, ∀ a, ∀ b ∈ next a, rank a < rank b := by
  classical
  refine ⟨fun a => (l.filter fun x => decide (TransGen (Edge next) x a)).length, fun a b hb => ?_⟩
  -- what leads to `a` leads to `b`, and so does `a` itself
  refine length_filter_lt (fun x hx => ?_) (hl a b hb) (decide_eq_true (.single hb)) ?_
  · exact decide_eq_true ((of_decide_eq_true hx).tail hb)
  · exact fun hself => h a (of_decide_eq_true hself)

/-- Where the nodes come after none of their successors, no edge is late. -/
theorem lateEdge?_eq_none_of_pairwise {before rest : List α}
    (hrest : rest.Pairwise fun a p => a ∉ next p) (hnodes : ∀ p ∈ nodes, p ∈ before ∨ p ∈ rest) :
    lateEdge? next nodes before rest = none := by
  induction rest generalizing before with
  | nil => rfl
  | cons a rest ih =>
    obtain ⟨ha, hrest⟩ := List.pairwise_cons.1 hrest
    have hnone : (nodes.find? fun p => p ≠ a ∧ p ∉ before ∧ a ∈ next p) = none := by
      refine List.find?_eq_none.2 fun p hp => ?_
      simp only [decide_eq_true_eq, not_and]
      intro hne hbefore
      exact ha p ((List.mem_cons.1 ((hnodes p hp).resolve_left hbefore)).resolve_left hne)
    rw [lateEdge?, hnone]
    refine ih hrest fun p hp => ?_
    obtain hp | hp := hnodes p hp
    · exact .inl (List.mem_cons_of_mem _ hp)
    · obtain rfl | hp := List.mem_cons.1 hp
      · exact .inl List.mem_cons_self
      · exact .inr hp

/-- **No cycle, no witness.** -/
theorem cycleWitness?_eq_none {rank : α → Nat} (hrank : ∀ a, ∀ b ∈ next a, rank a < rank b)
    (hnodes : ∀ p ∈ nodes, p ∈ starts) : cycleWitness? next nodes starts = none := by
  have hself : ((preorder next starts starts).find? fun a => a ∈ next a) = none := by
    refine List.find?_eq_none.2 fun a _ ha => ?_
    exact Nat.lt_irrefl _ (hrank a a (of_decide_eq_true ha))
  have hpairwise : (postorder next starts starts).Pairwise fun a b => b ∉ next a := by
    have hstart : Ascending next rank (fun _ => True) starts (starts.map .enter) :=
      ascending_roots fun _ _ => trivial
    exact hstart.leaves_visits fun a _ b hb => ⟨trivial, hrank a b hb⟩
  rw [cycleWitness?, hself]
  refine lateEdge?_eq_none_of_pairwise (List.pairwise_reverse.2 hpairwise) fun p hp => .inr ?_
  have hp : p ∈ preorder next starts starts := root_mem_preorder (hnodes p hp) (hnodes p hp)
  exact List.mem_reverse.2 (mem_postorder_iff_mem_preorder.2 hp)

end ShaderLink.Traversal
