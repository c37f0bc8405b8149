import ShaderLink.Closure.Cycle
import ShaderLink.Proofs.Traversal.Reach

/-!
# Traversals of renamed things

A traversal does not look at what it traverses: where things are renamed, and with them their
successors, it makes the same visits under the new names (`visits_map`). That carries over to both
of its orders and to the search for a cycle (`cycleWitness?_map`).

The things that matter are those of `p`, which holds of the roots and goes over to successors. What
else can be entered plays no part.
-/

namespace ShaderLink

/-- A visit of a thing under another name. -/
def Visit.map {α β : Type} (f : α → β) : Visit α → Visit β
  | enter a => enter (f a)
  | leave a => leave (f a)

/-- The first that passes a test is the first under its new name. -/
theorem find?_map_of {α β : Type} {f : α → β} {q : β → Bool} {r : α → Bool} {l : List α}
    (h : ∀ a ∈ l, q (f a) = r a) : (l.map f).find? q = (l.find? r).map f := by
  induction l with
  | nil => rfl
  | cons a l ih =>
    rw [List.map_cons, List.find?_cons, List.find?_cons, h a List.mem_cons_self]
    cases r a with
    | true => rfl
    | false => exact ih fun b hb => h b (List.mem_cons_of_mem a hb)

/-- Renaming keeps first occurrences first. -/
theorem eraseDups_map {α β : Type} [DecidableEq α] [DecidableEq β] {f : α → β}
    (hf : Function.Injective f) (l : List α) : (l.map f).eraseDups = l.eraseDups.map f := by
  induction h : l.length using Nat.strongRecOn generalizing l with
  | ind n ih =>
    cases l with
    | nil => rfl
    | cons a l =>
      have hlen : (l.filter fun b => !b == a).length < n := by
        have := List.length_filter_le (fun b => !b == a) l
        simp only [List.length_cons] at h
        omega
      have hfilter : (l.map f).filter (fun b => !b == f a) = (l.filter fun b => !b == a).map f := by
        rw [List.filter_map]
        refine congrArg (List.map f) (List.filter_congr fun b _ => ?_)
        simp [hf.eq_iff]
      rw [List.map_cons, List.eraseDups_cons, List.eraseDups_cons, hfilter, ih _ hlen _ rfl]
      rfl

namespace Traversal

open Relation

variable {α β : Type} {f : α → β} {next : α → List α} {next' : β → List β} {p : α → Prop}

/-- The successors of things, renamed as the things are. -/
structure Renames (f : α → β) (p : α → Prop) (next : α → List α) (next' : β → List β) : Prop where
  injective : Function.Injective f
  next_eq : ∀ a, p a → next' (f a) = (next a).map f
  closed : ∀ a, p a → ∀ b ∈ next a, p b

theorem Renames.reverse (h : Renames f p next next') :
    Renames f p (fun a => (next a).reverse) (fun b => (next' b).reverse) where
  injective := h.injective
  next_eq := fun a ha => by rw [h.next_eq a ha, List.map_reverse]
  closed := fun a ha b hb => h.closed a ha b (List.mem_reverse.1 hb)

variable {roots : List α}

/-- What roots lead to goes over to the new names. -/
theorem Renames.reachable (h : Renames f p next next') (hroots : ∀ r ∈ roots, p r) {a : α}
    (ha : Reachable next roots a) : p a ∧ Reachable next' (roots.map f) (f a) := by
  refine ha.induction (p := fun a => p a ∧ Reachable next' (roots.map f) (f a))
    (fun r hr => ⟨hroots r hr, .root (List.mem_map_of_mem hr)⟩) fun a ha b hb => ?_
  refine ⟨h.closed a ha.1 b hb, ha.2.step ?_⟩
  rw [h.next_eq a ha.1]
  exact List.mem_map_of_mem hb

/-- What roots lead to matters no more than that. -/
theorem Renames.ofReachable (h : Renames f p next next') (hroots : ∀ r ∈ roots, p r) :
    Renames f (Reachable next roots) next next' where
  injective := h.injective
  next_eq := fun a ha => h.next_eq a (h.reachable hroots ha).1
  closed := fun _ ha _ hb => ha.step hb

variable [DecidableEq α] [DecidableEq β] {domain nodes starts : List α} {domain' : List β}

/-- **The same visits under other names.** -/
theorem visits_map (h : Renames f p next next') {stack : List (Visit α)} {unseen : List α}
    {unseen' : List β} (hstack : ∀ a, .enter a ∈ stack → p a)
    (hunseen : ∀ a, p a → (f a ∈ unseen' ↔ a ∈ unseen)) :
    visits next' (stack.map (Visit.map f)) unseen' =
      (visits next stack unseen).map (Visit.map f) := by
  fun_induction visits next stack unseen generalizing unseen' with
  | case1 => simp [visits]
  | case2 a stack unseen ih =>
    rw [List.map_cons, List.map_cons, Visit.map, visits, ih ?_ hunseen]
    exact fun b hb => hstack b (List.mem_cons_of_mem _ hb)
  | case3 a stack unseen ha ih =>
    have hpa : p a := hstack a List.mem_cons_self
    have ha' : f a ∈ unseen' := (hunseen a hpa).2 ha
    -- what is pending now are successors of `a`, or was pending before
    have hpending : ∀ b, .enter b ∈ (next a).map .enter ++ .leave a :: stack → p b := by
      intro b hb
      obtain hb | hb := List.mem_append.1 hb
      · exact h.closed a hpa b (by simpa using hb)
      · exact hstack b (List.mem_cons_of_mem _ (by simpa using hb))
    have hrest : ∀ b, p b → (f b ∈ without (f a) unseen' ↔ b ∈ without a unseen) := by
      intro b hb
      rw [mem_without, mem_without, hunseen b hb, h.injective.ne_iff]
    rw [List.map_cons, List.map_cons, Visit.map, visits, if_pos ha', h.next_eq a hpa,
      ← ih hpending hrest]
    simp [Visit.map, Function.comp_def]
  | case4 a stack unseen ha ih =>
    have ha' : f a ∉ unseen' := fun hmem => ha ((hunseen a (hstack a List.mem_cons_self)).1 hmem)
    rw [List.map_cons, Visit.map, visits, if_neg ha', ih ?_ hunseen]
    exact fun b hb => hstack b (List.mem_cons_of_mem _ hb)

omit [DecidableEq α] [DecidableEq β] in
theorem enters_map (l : List (Visit α)) : enters (l.map (Visit.map f)) = (enters l).map f := by
  induction l with
  | nil => rfl
  | cons v l ih => cases v <;> simp [Visit.map, ih]

omit [DecidableEq α] [DecidableEq β] in
theorem leaves_map (l : List (Visit α)) : leaves (l.map (Visit.map f)) = (leaves l).map f := by
  induction l with
  | nil => rfl
  | cons v l ih => cases v <;> simp [Visit.map, ih]

theorem run_map (h : Renames f p next next') (hroots : ∀ r ∈ roots, p r)
    (hdomain : ∀ a, p a → (f a ∈ domain' ↔ a ∈ domain)) :
    run next' domain' (roots.map f) = (run next domain roots).map (Visit.map f) := by
  have hstack : ∀ a, .enter a ∈ roots.map Visit.enter → p a := fun a ha =>
    hroots a (by simpa using ha)
  have hvisits := visits_map h hstack hdomain
  rw [List.map_map] at hvisits
  rw [run, run, ← hvisits, List.map_map]
  rfl

theorem preorder_map (h : Renames f p next next') (hroots : ∀ r ∈ roots, p r)
    (hdomain : ∀ a, p a → (f a ∈ domain' ↔ a ∈ domain)) :
    preorder next' domain' (roots.map f) = (preorder next domain roots).map f := by
  unfold preorder
  rw [run_map h hroots hdomain]
  exact enters_map _

theorem postorder_map (h : Renames f p next next') (hroots : ∀ r ∈ roots, p r)
    (hdomain : ∀ a, p a → (f a ∈ domain' ↔ a ∈ domain)) :
    postorder next' domain' (roots.map f) = (postorder next domain roots).map f := by
  unfold postorder
  rw [run_map h hroots hdomain]
  exact leaves_map _

/-! ### The search for a cycle -/

theorem lateEdge?_map (h : Renames f p next next') (hnodes : ∀ a ∈ nodes, p a)
    (before rest : List α) :
    lateEdge? next' (nodes.map f) (before.map f) (rest.map f) =
      (lateEdge? next nodes before rest).map f := by
  induction rest generalizing before with
  | nil => rfl
  | cons a rest ih =>
    have hfind : (nodes.map f).find? (fun b => b ≠ f a ∧ b ∉ before.map f ∧ f a ∈ next' b) =
        (nodes.find? fun b => b ≠ a ∧ b ∉ before ∧ a ∈ next b).map f := by
      refine find?_map_of fun b hb => ?_
      simp [h.next_eq b (hnodes b hb), h.injective.eq_iff]
    rw [List.map_cons, lateEdge?, lateEdge?, hfind]
    cases nodes.find? fun b => b ≠ a ∧ b ∉ before ∧ a ∈ next b with
    | some b => rfl
    | none => exact ih (a :: before)

/-- **The same witness under another name.** -/
theorem cycleWitness?_map (h : Renames f p next next') (hnodes : ∀ a ∈ nodes, p a)
    (hstarts : ∀ a ∈ starts, p a) :
    cycleWitness? next' (nodes.map f) (starts.map f) = (cycleWitness? next nodes starts).map f := by
  have hdomain : ∀ a, p a → (f a ∈ starts.map f ↔ a ∈ starts) := fun a _ => by
    simp [h.injective.eq_iff]
  have hself : (preorder next' (starts.map f) (starts.map f)).find? (fun a => a ∈ next' a) =
      ((preorder next starts starts).find? fun a => a ∈ next a).map f := by
    rw [preorder_map h hstarts hdomain]
    refine find?_map_of fun a ha => ?_
    have hpa : p a := (h.reachable hstarts (reachable_of_mem_preorder ha)).1
    simp [h.next_eq a hpa, h.injective.eq_iff]
  rw [cycleWitness?, cycleWitness?, hself]
  cases (preorder next starts starts).find? fun a => a ∈ next a with
  | some a => rfl
  | none =>
    rw [Option.map_none, postorder_map h hstarts hdomain, ← List.map_reverse]
    exact lateEdge?_map h hnodes [] _

end Traversal

end ShaderLink
