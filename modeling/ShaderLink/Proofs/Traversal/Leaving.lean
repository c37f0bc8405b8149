import Mathlib.Data.List.Nodup
import ShaderLink.Proofs.Traversal.Reach

/-!
# The leaving order

Where successors rank higher, so that nothing leads back to itself, a traversal leaves a thing only
after everything it leads to (`idxOf_postorder_lt`).

What makes it so is the stack. The things whose leaving is pending are the path to where the
traversal is: each ranks below everything above it, and its successors are above it as long as they
can still be entered (`Ascending`). Entering and leaving keep the stack so.
-/

namespace ShaderLink

/-- What is entered or left. -/
def Visit.subject {α : Type} : Visit α → α
  | .enter a | .leave a => a

namespace Traversal

open Relation

variable {α : Type} [DecidableEq α] {next : α → List α} {rank : α → Nat} {p : α → Prop}
  {stack : List (Visit α)} {unseen : List α} {a b : α}

/-- What is on a stack above a pending leave. -/
def above (a : α) (stack : List (Visit α)) : List (Visit α) :=
  stack.takeWhile (· ≠ .leave a)

@[simp] theorem above_leave_self : above a (.leave a :: stack) = [] := by
  simp [above]

theorem above_cons {v : Visit α} (h : v ≠ .leave a) : above a (v :: stack) = v :: above a stack := by
  simp [above, h]

theorem above_enters (as : List α) :
    above a (as.map .enter ++ stack) = as.map .enter ++ above a stack := by
  refine List.takeWhile_append_of_pos fun v hv => ?_
  obtain ⟨b, -, rfl⟩ := List.mem_map.1 hv
  simp

/-- **A stack on which ranks ascend.** Everything above a pending leave ranks higher, and the
successors that can still be entered are among it. -/
structure Ascending (next : α → List α) (rank : α → Nat) (p : α → Prop) (unseen : List α)
    (stack : List (Visit α)) : Prop where
  subject : ∀ v ∈ stack, p v.subject
  ranked : stack.Pairwise fun v w => ∀ a, w = .leave a → rank a < rank v.subject
  pending : ∀ a, .leave a ∈ stack → ∀ b ∈ next a, b ∈ unseen → .enter b ∈ above a stack

omit [DecidableEq α] in
/-- The things that are still to be entered have no leave pending between them. -/
theorem pairwise_enters (as : List α) : (as.map Visit.enter).Pairwise fun v w =>
    ∀ a, w = .leave a → rank a < rank v.subject := by
  rw [List.pairwise_map]
  exact List.pairwise_of_forall fun r s a hs => nomatch hs

theorem ascending_roots {roots : List α} (hroots : ∀ r ∈ roots, p r) :
    Ascending next rank p unseen (roots.map .enter) where
  subject := fun v hv => by
    obtain ⟨r, hr, rfl⟩ := List.mem_map.1 hv
    exact hroots r hr
  ranked := pairwise_enters roots
  pending := fun a ha => by
    obtain ⟨r, -, hr⟩ := List.mem_map.1 ha
    cases hr

/-- What is taken off the stack was a leave, or can no longer be entered. -/
theorem Ascending.tail {v : Visit α} (h : Ascending next rank p unseen (v :: stack))
    (hv : ∀ b, v = .enter b → b ∉ unseen) : Ascending next rank p unseen stack where
  subject := fun w hw => h.subject w (List.mem_cons_of_mem v hw)
  ranked := (List.pairwise_cons.1 h.ranked).2
  pending := fun a ha b hb hu => by
    have habove := h.pending a (List.mem_cons_of_mem v ha) b hb hu
    by_cases hva : v = .leave a
    · rw [hva, above_leave_self] at habove
      cases habove
    · rw [above_cons hva] at habove
      obtain heq | habove := List.mem_cons.1 habove
      · exact absurd hu (hv b heq.symm)
      · exact habove

/-- Entering a thing puts its successors above its leave. -/
theorem Ascending.enter (h : Ascending next rank p unseen (.enter a :: stack))
    (hrank : ∀ a, p a → ∀ b ∈ next a, p b ∧ rank a < rank b) :
    Ascending next rank p (without a unseen) ((next a).map .enter ++ .leave a :: stack) where
  subject := fun v hv => by
    have ha : p a := h.subject _ List.mem_cons_self
    obtain hv | hv := List.mem_append.1 hv
    · obtain ⟨b, hb, rfl⟩ := List.mem_map.1 hv
      exact (hrank a ha b hb).1
    · obtain rfl | hv := List.mem_cons.1 hv
      · exact ha
      · exact h.subject v (List.mem_cons_of_mem _ hv)
  ranked := by
    obtain ⟨hbelow, htail⟩ := List.pairwise_cons.1 h.ranked
    refine List.pairwise_append.2 ⟨pairwise_enters _, List.pairwise_cons.2 ⟨hbelow, htail⟩, ?_⟩
    -- a successor ranks above `a`, and so above everything that `a` ranks above
    intro v hv w hw c hc
    obtain ⟨b, hb, rfl⟩ := List.mem_map.1 hv
    have hab : rank a < rank b := (hrank a (h.subject _ List.mem_cons_self) b hb).2
    obtain rfl | hw := List.mem_cons.1 hw
    · cases hc
      exact hab
    · exact Nat.lt_trans (hbelow w hw c hc) hab
  pending := fun c hc b hb hu => by
    obtain ⟨hu, hba⟩ := mem_without.1 hu
    rw [above_enters, List.mem_append]
    by_cases hac : a = c
    · subst hac
      exact .inl (List.mem_map_of_mem hb)
    · -- the successors of another thing are where they were
      have hne : Visit.leave a ≠ .leave c := by simpa using hac
      have hc : .leave c ∈ stack := by simpa [Ne.symm hac] using hc
      have habove := h.pending c (List.mem_cons_of_mem _ hc) b hb hu
      rw [above_cons (by simp)] at habove
      have habove : .enter b ∈ above c stack := by simpa [hba] using habove
      rw [above_cons hne]
      exact .inr (List.mem_cons_of_mem _ habove)

/-- **Nothing is left before a successor of it**: what is left after a thing is none of its
successors. -/
theorem Ascending.leaves_visits (h : Ascending next rank p unseen stack)
    (hrank : ∀ a, p a → ∀ b ∈ next a, p b ∧ rank a < rank b) :
    (leaves (visits next stack unseen)).Pairwise fun a b => b ∉ next a := by
  fun_induction visits next stack unseen with
  | case1 => exact List.Pairwise.nil
  | case2 a stack unseen ih =>
    have htail : Ascending next rank p unseen stack := h.tail fun b hb => by cases hb
    rw [leaves_leave]
    refine List.pairwise_cons.2 ⟨fun b hb hab => ?_, ih htail⟩
    obtain hb | hb := leave_mem_visits.1 (mem_leaves.1 hb)
    · -- a successor that could be entered would be above `a`, and nothing is
      have habove := h.pending a List.mem_cons_self b hab (reachable_of_enter_mem hb).1
      rw [above_leave_self] at habove
      cases habove
    · -- one that is pending below would rank below `a`
      have hba : rank b < rank a := (List.pairwise_cons.1 h.ranked).1 _ hb b rfl
      have hab : rank a < rank b := (hrank a (h.subject _ List.mem_cons_self) b hab).2
      exact Nat.lt_asymm hab hba
  | case3 a stack unseen ha ih =>
    rw [leaves_enter]
    exact ih (h.enter hrank)
  | case4 a stack unseen ha ih =>
    refine ih (h.tail fun b hb => ?_)
    cases hb
    exact ha

/-! ### Everything that a thing leads to -/

variable {domain roots : List α}

/-- What is listed before none of its successors comes after those that are listed. -/
theorem idxOf_lt_of_pairwise {l : List α} (h : l.Pairwise fun a b => b ∉ next a) (ha : a ∈ l)
    (hb : b ∈ l) (hab : b ∈ next a) (hne : a ≠ b) : l.idxOf b < l.idxOf a := by
  induction l with
  | nil => cases ha
  | cons c l ih =>
    obtain ⟨hc, htail⟩ := List.pairwise_cons.1 h
    by_cases hcb : c = b
    · subst hcb
      rw [List.idxOf_cons_self, List.idxOf_cons_ne _ (Ne.symm hne)]
      exact Nat.succ_pos _
    · have hb : b ∈ l := (List.mem_cons.1 hb).resolve_left (Ne.symm hcb)
      -- were `a` the first of the list, its successor would come later
      have hca : c ≠ a := by
        rintro rfl
        exact hc b hb hab
      have ha : a ∈ l := (List.mem_cons.1 ha).resolve_left (Ne.symm hca)
      rw [List.idxOf_cons_ne _ hcb, List.idxOf_cons_ne _ hca]
      exact Nat.succ_lt_succ (ih htail ha hb)

/-- **A thing is left after everything it leads to**, where successors rank higher. -/
theorem idxOf_postorder_lt (hd : ∀ a, Reachable next roots a → a ∈ domain)
    (hrank : ∀ a, Reachable next roots a → ∀ b ∈ next a, rank a < rank b)
    (ha : Reachable next roots a) (hab : TransGen (Edge next) a b) :
    (postorder next domain roots).idxOf b < (postorder next domain roots).idxOf a := by
  have hpairwise : (postorder next domain roots).Pairwise fun a b => b ∉ next a := by
    have hstart : Ascending next rank (Reachable next roots) domain (roots.map .enter) :=
      ascending_roots fun r hr => .root hr
    exact hstart.leaves_visits fun a ha b hb => ⟨ha.step hb, hrank a ha b hb⟩
  -- along one edge this is what the order is about, and along a path it adds up
  have hedge : ∀ {a b : α}, Reachable next roots a → b ∈ next a →
      (postorder next domain roots).idxOf b < (postorder next domain roots).idxOf a := by
    intro a b ha hb
    have hne : a ≠ b := by
      rintro rfl
      exact Nat.lt_irrefl _ (hrank a ha a hb)
    refine idxOf_lt_of_pairwise hpairwise ?_ ?_ hb hne
    · exact (mem_postorder_iff hd).2 ha
    · exact (mem_postorder_iff hd).2 (ha.step hb)
  induction hab with
  | single hb => exact hedge ha hb
  | @tail b c hab hbc ih =>
    calc (postorder next domain roots).idxOf c
        < (postorder next domain roots).idxOf b := hedge (ha.trans hab.to_reflTransGen) hbc
      _ < (postorder next domain roots).idxOf a := ih

/-- Leaving things out of a list keeps the order of the others. -/
theorem idxOf_filter_lt {l : List α} {keep : α → Bool} (h : l.idxOf b < l.idxOf a)
    (hb : keep b = true) : (l.filter keep).idxOf b < (l.filter keep).idxOf a := by
  induction l with
  | nil => exact absurd h (Nat.lt_irrefl _)
  | cons c l ih =>
    have hca : c ≠ a := by
      rintro rfl
      rw [List.idxOf_cons_self] at h
      exact Nat.not_lt_zero _ h
    by_cases hcb : c = b
    · subst hcb
      rw [List.filter_cons_of_pos hb, List.idxOf_cons_self, List.idxOf_cons_ne _ hca]
      exact Nat.succ_pos _
    · rw [List.idxOf_cons_ne _ hcb, List.idxOf_cons_ne _ hca] at h
      have hlt := ih (Nat.lt_of_succ_lt_succ h)
      by_cases hc : keep c = true
      · rw [List.filter_cons_of_pos hc, List.idxOf_cons_ne _ hcb, List.idxOf_cons_ne _ hca]
        exact Nat.succ_lt_succ hlt
      · rwa [List.filter_cons_of_neg hc]

end Traversal

end ShaderLink
