import Mathlib.Data.List.Nodup
import Mathlib.Logic.Relation
import ShaderLink.Traversal

/-!
# What a traversal meets

A traversal over a domain that holds everything its roots lead to meets exactly what is
**reachable** from the roots (`mem_preorder_iff`), leaves all of it (`mem_postorder_iff`), and lists
nothing twice in either order.

All of it is read off `visits`, by induction along its recursion: what is on the stack and still
enterable is entered, and an entered thing is entered together with its enterable successors.
-/

namespace ShaderLink.Traversal

open Relation

variable {α : Type}

/-- One step along a successor. -/
def Edge (next : α → List α) (a b : α) : Prop := b ∈ next a

/-- Steps along successors lead from some root to a thing. -/
def Reachable (next : α → List α) (roots : List α) (a : α) : Prop :=
  ∃ r ∈ roots, ReflTransGen (Edge next) r a

theorem Reachable.root {next : α → List α} {roots : List α} {a : α} (h : a ∈ roots) :
    Reachable next roots a :=
  ⟨a, h, .refl⟩

theorem Reachable.step {next : α → List α} {roots : List α} {a b : α}
    (h : Reachable next roots a) (hb : b ∈ next a) : Reachable next roots b := by
  obtain ⟨r, hr, hra⟩ := h
  exact ⟨r, hr, hra.tail hb⟩

theorem Reachable.trans {next : α → List α} {roots : List α} {a b : α}
    (h : Reachable next roots a) (hb : ReflTransGen (Edge next) a b) : Reachable next roots b := by
  obtain ⟨r, hr, hra⟩ := h
  exact ⟨r, hr, hra.trans hb⟩

theorem Reachable.mono {next : α → List α} {roots more : List α} {a : α}
    (h : Reachable next roots a) (hsub : ∀ r ∈ roots, r ∈ more) : Reachable next more a := by
  obtain ⟨r, hr, hra⟩ := h
  exact ⟨r, hsub r hr, hra⟩

/-- A property of the roots that successors inherit holds of everything reachable. -/
theorem Reachable.induction {next : α → List α} {roots : List α} {p : α → Prop}
    (root : ∀ r ∈ roots, p r) (step : ∀ a, p a → ∀ b ∈ next a, p b) {a : α}
    (h : Reachable next roots a) : p a := by
  obtain ⟨r, hr, hra⟩ := h
  induction hra with
  | refl => exact root r hr
  | tail _ hbc ih => exact step _ ih _ hbc

/-- The order of roots and successors does not matter for where they lead. -/
theorem reachable_reverse_iff {next : α → List α} {roots : List α} {a : α} :
    Reachable (fun a => (next a).reverse) roots.reverse a ↔ Reachable next roots a := by
  have hedge : Edge (fun a => (next a).reverse) = Edge next := by
    funext b c
    exact propext List.mem_reverse
  simp only [Reachable, hedge, List.mem_reverse]

variable [DecidableEq α] {next : α → List α} {stack : List (Visit α)} {unseen : List α}

theorem mem_without {a b : α} : b ∈ without a unseen ↔ b ∈ unseen ∧ b ≠ a := by
  simp [without]

/-! ### Entering -/

/-- What is pending and may still be entered is entered. -/
theorem enter_mem_visits {a : α} (h : .enter a ∈ stack) (ha : a ∈ unseen) :
    .enter a ∈ visits next stack unseen := by
  fun_induction visits next stack unseen with
  | case1 => cases h
  | case2 b stack unseen ih =>
    have h : .enter a ∈ stack := by simpa using h
    exact List.mem_cons_of_mem _ (ih h ha)
  | case3 b stack unseen hb ih =>
    by_cases hab : a = b
    · subst hab
      exact List.mem_cons_self
    · -- entering `b` leaves `a` pending and enterable
      have h : .enter a ∈ stack := by simpa [hab] using h
      exact List.mem_cons_of_mem _ (ih (by simp [h]) (mem_without.2 ⟨ha, hab⟩))
  | case4 b stack unseen hb ih =>
    have hab : a ≠ b := fun e => hb (e ▸ ha)
    exact ih (by simpa [hab] using h) ha

/-- Whatever is entered had not been entered before, and is led to from something pending. -/
theorem reachable_of_enter_mem {a : α} (h : .enter a ∈ visits next stack unseen) :
    a ∈ unseen ∧ ∃ r, .enter r ∈ stack ∧ ReflTransGen (Edge next) r a := by
  fun_induction visits next stack unseen with
  | case1 => cases h
  | case2 b stack unseen ih =>
    obtain ⟨ha, r, hr, hra⟩ := ih (by simpa using h)
    exact ⟨ha, r, List.mem_cons_of_mem _ hr, hra⟩
  | case3 b stack unseen hb ih =>
    obtain h | h := List.mem_cons.1 h
    · obtain rfl : a = b := by simpa using h
      exact ⟨hb, a, List.mem_cons_self, .refl⟩
    · obtain ⟨ha, r, hr, hra⟩ := ih h
      refine ⟨(mem_without.1 ha).1, ?_⟩
      -- the path starts at a successor of `b` or below it on the stack
      obtain hr | hr := List.mem_append.1 hr
      · have hr : r ∈ next b := by simpa using hr
        exact ⟨b, List.mem_cons_self, .head hr hra⟩
      · exact ⟨r, by simpa using Or.inr hr, hra⟩
  | case4 b stack unseen hb ih =>
    obtain ⟨ha, r, hr, hra⟩ := ih h
    exact ⟨ha, r, List.mem_cons_of_mem _ hr, hra⟩

/-- Together with a thing its successors are entered. -/
theorem enter_next_mem_visits {a b : α} (h : .enter a ∈ visits next stack unseen)
    (hb : b ∈ next a) (hu : b ∈ unseen) : .enter b ∈ visits next stack unseen := by
  fun_induction visits next stack unseen with
  | case1 => cases h
  | case2 c stack unseen ih =>
    exact List.mem_cons_of_mem _ (ih (by simpa using h) hu)
  | case3 c stack unseen hc ih =>
    by_cases hbc : b = c
    · subst hbc
      exact List.mem_cons_self
    · have hu' : b ∈ without c unseen := mem_without.2 ⟨hu, hbc⟩
      refine List.mem_cons_of_mem _ ?_
      obtain h | h := List.mem_cons.1 h
      · -- the successors of what is entered are pending from then on
        obtain rfl : a = c := by simpa using h
        exact enter_mem_visits (by simp [hb]) hu'
      · exact ih h hu'
  | case4 c stack unseen hc ih => exact ih h hu

/-! ### Leaving -/

/-- What is left was entered, or its leaving was pending. -/
theorem leave_mem_visits {a : α} :
    .leave a ∈ visits next stack unseen ↔
      .enter a ∈ visits next stack unseen ∨ .leave a ∈ stack := by
  fun_induction visits next stack unseen with
  | case1 => simp
  | case2 b stack unseen ih => simp [ih, or_left_comm]
  | case3 b stack unseen hb ih =>
    simp [ih, or_comm, or_left_comm, or_assoc]
  | case4 b stack unseen hb ih => simp [ih]

/-! ### Orders -/

variable {domain roots : List α}

/-- The things that visits enter. -/
def enters (l : List (Visit α)) : List α :=
  l.filterMap fun
    | .enter a => some a
    | .leave _ => none

omit [DecidableEq α] in
@[simp] theorem enters_enter (a : α) (l : List (Visit α)) : enters (.enter a :: l) = a :: enters l :=
  rfl

omit [DecidableEq α] in
@[simp] theorem enters_leave (a : α) (l : List (Visit α)) : enters (.leave a :: l) = enters l := rfl

omit [DecidableEq α] in
@[simp] theorem enters_map_enter (as : List α) (l : List (Visit α)) :
    enters (as.map .enter ++ l) = as ++ enters l := by
  induction as with
  | nil => rfl
  | cons a as ih => exact congrArg (a :: ·) ih

omit [DecidableEq α] in
theorem mem_enters {a : α} {l : List (Visit α)} : a ∈ enters l ↔ .enter a ∈ l := by
  induction l with
  | nil => simp [enters]
  | cons v l ih => cases v <;> simp [ih]

/-- The things that visits leave. -/
def leaves (l : List (Visit α)) : List α :=
  l.filterMap fun
    | .enter _ => none
    | .leave a => some a

omit [DecidableEq α] in
@[simp] theorem leaves_enter (a : α) (l : List (Visit α)) : leaves (.enter a :: l) = leaves l := rfl

omit [DecidableEq α] in
@[simp] theorem leaves_leave (a : α) (l : List (Visit α)) :
    leaves (.leave a :: l) = a :: leaves l := rfl

omit [DecidableEq α] in
@[simp] theorem leaves_map_enter (as : List α) (l : List (Visit α)) :
    leaves (as.map .enter ++ l) = leaves l := by
  induction as with
  | nil => rfl
  | cons a as ih => exact ih

omit [DecidableEq α] in
theorem mem_leaves {a : α} {l : List (Visit α)} : a ∈ leaves l ↔ .leave a ∈ l := by
  induction l with
  | nil => simp [leaves]
  | cons v l ih => cases v <;> simp [ih]

theorem mem_preorder {a : α} :
    a ∈ preorder next domain roots ↔ .enter a ∈ run next domain roots :=
  mem_enters

theorem mem_postorder_iff_mem_preorder {a : α} :
    a ∈ postorder next domain roots ↔ a ∈ preorder next domain roots := by
  have hleave : .leave a ∈ run next domain roots ↔ .enter a ∈ run next domain roots := by
    simp [run, leave_mem_visits]
  rw [mem_preorder, ← hleave]
  exact mem_leaves

theorem root_mem_preorder {a : α} (h : a ∈ roots) (hd : a ∈ domain) :
    a ∈ preorder next domain roots :=
  mem_preorder.2 (enter_mem_visits (List.mem_map_of_mem h) hd)

theorem next_mem_preorder {a b : α} (h : a ∈ preorder next domain roots) (hb : b ∈ next a)
    (hd : b ∈ domain) : b ∈ preorder next domain roots :=
  mem_preorder.2 (enter_next_mem_visits (mem_preorder.1 h) hb hd)

theorem reachable_of_mem_preorder {a : α} (h : a ∈ preorder next domain roots) :
    Reachable next roots a := by
  obtain ⟨-, r, hr, hra⟩ := reachable_of_enter_mem (mem_preorder.1 h)
  exact ⟨r, by simpa using hr, hra⟩

/-- **What a traversal meets** is what its roots lead to, as long as all of it is in the domain. -/
theorem mem_preorder_iff (hd : ∀ a, Reachable next roots a → a ∈ domain) {a : α} :
    a ∈ preorder next domain roots ↔ Reachable next roots a := by
  refine ⟨reachable_of_mem_preorder, fun h => ?_⟩
  refine (h.induction (p := fun a => Reachable next roots a ∧ a ∈ preorder next domain roots)
    (fun r hr => ?_) (fun b hb c hc => ?_)).2
  · exact ⟨.root hr, root_mem_preorder hr (hd r (.root hr))⟩
  · exact ⟨hb.1.step hc, next_mem_preorder hb.2 hc (hd c (hb.1.step hc))⟩

theorem mem_postorder_iff (hd : ∀ a, Reachable next roots a → a ∈ domain) {a : α} :
    a ∈ postorder next domain roots ↔ Reachable next roots a := by
  rw [mem_postorder_iff_mem_preorder, mem_preorder_iff hd]

theorem nodup_enters_visits : (enters (visits next stack unseen)).Nodup := by
  fun_induction visits next stack unseen with
  | case1 => exact List.nodup_nil
  | case2 b stack unseen ih => exact ih
  | case3 b stack unseen hb ih =>
    rw [enters_enter]
    refine List.nodup_cons.2 ⟨fun hmem => ?_, ih⟩
    -- `b` is no longer enterable when the rest is visited
    exact (mem_without.1 (reachable_of_enter_mem (mem_enters.1 hmem)).1).2 rfl
  | case4 b stack unseen hb ih => exact ih

/-- Nothing is entered twice. -/
theorem nodup_preorder : (preorder next domain roots).Nodup := nodup_enters_visits

/-- Nothing is left twice, as long as what is pending to be left is not entered again. -/
theorem nodup_leaves_visits (hnodup : (leaves stack).Nodup)
    (hpending : ∀ a ∈ leaves stack, a ∉ unseen) : (leaves (visits next stack unseen)).Nodup := by
  fun_induction visits next stack unseen with
  | case1 => exact List.nodup_nil
  | case2 b stack unseen ih =>
    rw [leaves_leave] at hnodup hpending ⊢
    obtain ⟨hb, hnodup⟩ := List.nodup_cons.1 hnodup
    refine List.nodup_cons.2 ⟨fun hmem => ?_, ih hnodup fun a ha => hpending a (by simp [ha])⟩
    -- to be left again, `b` would have to be entered again or be pending twice
    obtain hmem | hmem := leave_mem_visits.1 (mem_leaves.1 hmem)
    · exact hpending b List.mem_cons_self (reachable_of_enter_mem hmem).1
    · exact hb (mem_leaves.2 hmem)
  | case3 b stack unseen hb ih =>
    rw [leaves_enter] at hnodup hpending ⊢
    rw [leaves_map_enter, leaves_leave] at ih
    -- `b` can be entered until now, so its leaving is not pending yet
    refine ih (List.nodup_cons.2 ⟨fun h => hpending b h hb, hnodup⟩) fun a ha hau => ?_
    obtain ⟨hau, hab⟩ := mem_without.1 hau
    exact hpending a ((List.mem_cons.1 ha).resolve_left hab) hau
  | case4 b stack unseen hb ih => exact ih hnodup hpending

theorem nodup_postorder : (postorder next domain roots).Nodup := by
  have hroots : leaves (roots.map Visit.enter) = [] := by
    rw [← List.append_nil (roots.map Visit.enter), leaves_map_enter]
    rfl
  exact nodup_leaves_visits (hroots ▸ List.nodup_nil) (by simp [hroots])

/-! ### The entering order -/

/-- Whatever is entered was pending, or is a successor of something entered before. -/
theorem exists_enters_before {a : α} (ha : a ∈ enters (visits next stack unseen)) :
    .enter a ∈ stack ∨ ∃ b, a ∈ next b ∧
      (enters (visits next stack unseen)).idxOf b < (enters (visits next stack unseen)).idxOf a := by
  fun_induction visits next stack unseen with
  | case1 => cases ha
  | case2 b stack unseen ih =>
    rw [enters_leave] at ha ⊢
    exact (ih ha).imp_left (List.mem_cons_of_mem _)
  | case3 b stack unseen hb ih =>
    rw [enters_enter] at ha ⊢
    by_cases hab : b = a
    · exact .inl (hab ▸ List.mem_cons_self)
    · have ha : a ∈ enters _ := (List.mem_cons.1 ha).resolve_left (Ne.symm hab)
      rw [List.idxOf_cons_ne _ hab]
      obtain h | ⟨c, hc, hlt⟩ := ih ha
      · -- `a` was pending below `b`, or `b` has put it on the stack
        obtain h | h := List.mem_append.1 h
        · have h : a ∈ next b := by simpa using h
          exact .inr ⟨b, h, by rw [List.idxOf_cons_self]; exact Nat.succ_pos _⟩
        · have h : .enter a ∈ stack := by simpa using h
          exact .inl (List.mem_cons_of_mem _ h)
      · refine .inr ⟨c, hc, ?_⟩
        by_cases hbc : b = c
        · rw [hbc, List.idxOf_cons_self]
          exact Nat.succ_pos _
        · rw [List.idxOf_cons_ne _ hbc]
          exact Nat.succ_lt_succ hlt
  | case4 b stack unseen hb ih => exact (ih ha).imp_left (List.mem_cons_of_mem _)

/-- **A thing is entered after something that leads to it**, unless it is a root. -/
theorem exists_idxOf_preorder_lt {a : α} (ha : a ∈ preorder next domain roots) (hroot : a ∉ roots) :
    ∃ b, a ∈ next b ∧
      (preorder next domain roots).idxOf b < (preorder next domain roots).idxOf a := by
  refine (exists_enters_before ha).resolve_left fun h => hroot ?_
  simpa using h

end ShaderLink.Traversal
