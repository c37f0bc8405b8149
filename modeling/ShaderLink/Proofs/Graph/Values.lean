import ShaderLink.Definition.Expression
import ShaderLink.Proofs.Closure.Order
import ShaderLink.Proofs.Naming.Assignment
import ShaderLink.Proofs.Store.Asking
import ShaderLink.Proofs.Store.Evolution

/-!
# Values apart

Graphs are **the same apart from values** if they hold the same objects with the same revisions,
except that variables may have other values (`Graph.SameApart`). Whatever does not look at the
values of variables is then the same in both: dependencies and what is emitted, the names that
objects must have or that their code takes, and the expressions of objects.

An assignment that reports no change of a definition leaves a graph the same apart from values
(`Store.Revalues.sameApart`).
-/

namespace ShaderLink

/-- An object without the value that it has taken. -/
def Object.withoutValue : Object → Object
  | .var v => .var { v with value := none, state := 0 }
  | o => o

namespace Graph

/-- **The same apart from values**: the same objects with the same revisions, but for the values of
variables. -/
def SameApart (g g' : Graph) : Prop :=
  ∀ x : ObjectId, (g'.nodes[x]?).map (fun n => (n.object.withoutValue, n.revision)) =
    (g.nodes[x]?).map fun n => (n.object.withoutValue, n.revision)

variable {g g' g'' : Graph} {x : ObjectId} {o o' : Object}

theorem SameApart.refl (g : Graph) : SameApart g g := fun _ => rfl

theorem SameApart.trans (h : SameApart g g') (h' : SameApart g' g'') : SameApart g g'' :=
  fun x => (h' x).trans (h x)

/-! ### What does not look at values -/

theorem SameApart.revision_eq (h : SameApart g g') (x : ObjectId) :
    g'.revision x = g.revision x := by
  have hx := congrArg (Option.map Prod.snd) (h x)
  rw [Option.map_map, Option.map_map] at hx
  unfold revision
  cases hn : g.nodes[x]? <;> cases hn' : g'.nodes[x]? <;> simp_all

/-- What is read off objects without their values is the same. -/
theorem SameApart.map_find? {α : Type} (h : SameApart g g') {f : Object → α}
    (hf : ∀ o, f o.withoutValue = f o) (x : ObjectId) :
    (g'.find? x).map f = (g.find? x).map f := by
  have hx := congrArg (Option.map fun r => f r.1) (h x)
  rw [Option.map_map, Option.map_map] at hx
  rw [find?, find?, Option.map_map, Option.map_map]
  have hread : (f ∘ fun n : Node => n.object) =
      ((fun r : Object × Nat => f r.1) ∘ fun n : Node => (n.object.withoutValue, n.revision)) := by
    funext n
    exact (hf n.object).symm
  rw [hread]
  exact hx

theorem SameApart.dependencies_eq (h : SameApart g g') : g'.dependencies = g.dependencies := by
  funext x
  rw [dependencies, dependencies, h.map_find? (fun o => by cases o <;> rfl)]

theorem SameApart.emits_eq (h : SameApart g g') : g'.emits = g.emits := by
  funext x
  have hx := h.map_find? (f := Object.emitted) (fun o => by cases o <;> rfl) x
  unfold emits
  cases hg : g.find? x <;> cases hg' : g'.find? x <;> simp_all

theorem SameApart.isSome_find? (h : SameApart g g') (x : ObjectId) :
    (g'.find? x).isSome = (g.find? x).isSome := by
  have hx := h.map_find? (f := fun _ => ()) (fun _ => rfl) x
  rw [← Option.isSome_map, hx, Option.isSome_map]

theorem SameApart.ids_eq (h : SameApart g g') : g'.ids = g.ids :=
  ids_congr fun x => by
    rw [mem_ids_iff, mem_ids_iff, ← Option.isSome_iff_exists, ← Option.isSome_iff_exists,
      h.isSome_find?]

theorem SameApart.walkBound_eq (h : SameApart g g') : g'.walkBound = g.walkBound := by
  rw [walkBound, walkBound, ← length_ids, ← length_ids, h.ids_eq]

theorem SameApart.emission_eq (h : SameApart g g') (m : StageMain) :
    g'.emission m = g.emission m := by
  unfold emission horizon
  rw [h.dependencies_eq, h.emits_eq, h.ids_eq]

theorem SameApart.fixedOf_eq (h : SameApart g g') (required : Names) (x : ObjectId) :
    Assignment.fixedOf g' required x = Assignment.fixedOf g required x := by
  have hx := h.map_find? (f := Assignment.fixedName? required x) (fun o => by cases o <;> rfl) x
  unfold Assignment.fixedOf
  cases hg : g.find? x <;> cases hg' : g'.find? x <;> simp_all

/-! ### Expressions -/

theorem SameApart.expressionWithin_eq (h : SameApart g g') (names : Names) (n : Nat)
    (x : ObjectId) : g'.expressionWithin names n x = g.expressionWithin names n x := by
  induction n generalizing x with
  | zero => rfl
  | succ n ih =>
    have hx := h.map_find? (f := Object.withoutValue) (fun o => by cases o <;> rfl) x
    rw [expressionWithin, expressionWithin, get, get]
    cases hg : g.find? x with
    | none =>
      rw [hg] at hx
      rw [Option.map_eq_none_iff.1 hx]
      rfl
    | some o =>
      obtain ⟨o', hg', heq⟩ : ∃ o', g'.find? x = some o' ∧ o'.withoutValue = o.withoutValue := by
        rw [hg] at hx
        exact Option.map_eq_some_iff.1 hx
      rw [hg']
      -- only variables can differ, and they are mentioned by name
      cases o <;> cases o' <;> simp_all [Object.withoutValue]

theorem SameApart.expression_eq (h : SameApart g g') : g'.expression = g.expression := by
  funext names x
  rw [expression, expression, h.walkBound_eq, h.expressionWithin_eq]

/-! ### Assignments -/

/-- Whether assigning a value would report a change of a definition. -/
def ReportsChange (g : Graph) (id : ObjectId) (value : Value) : Prop :=
  ∃ v w, g.find? id = some (.var v) ∧ v.setValue value = .ok (w, true)

end Graph

/-- Where no change is reported, all that changes is the value. -/
theorem Variable.withoutValue_of_setValue {v w : Variable} {value : Value}
    (h : v.setValue value = .ok (w, false)) :
    (Object.var w).withoutValue = (Object.var v).withoutValue := by
  obtain ⟨-, -, rfl, -⟩ | ⟨-, rfl, hsame⟩ := setValue_cases h
  · rfl
  · -- the qualifier and the type that are taken over are those it has
    obtain ⟨hq, ht⟩ := hsame rfl
    simp [Object.withoutValue, store, hq, ht]

namespace Store

/-- **Assignments that report no change**, one after the other. Those that are refused are among
them. -/
inductive Revalues (s : Store) : Store → Prop where
  | refl : Revalues s s
  | setValue {t : Store} (h : Revalues s t) (id : ObjectId) (value : Value)
      (hquiet : ¬ t.graph.ReportsChange id value) :
      Revalues s (stateAfter (Store.setValue id value) t)

variable {s t : Store}

theorem sameApart_setValue {id : ObjectId} {value : Value}
    (hquiet : ¬ s.graph.ReportsChange id value) :
    s.graph.SameApart (stateAfter (setValue id value) s).graph := by
  have hrefused : s.graph.SameApart s.graph := .refl _
  refine stateAfter_ask_bind (p := fun t => s.graph.SameApart t.graph) hrefused fun v hv => ?_
  have hv : s.graph.find? id = some (.var v) := Graph.getVariable_eq_ok_iff.1 hv
  cases hset : v.setValue value with
  | error e => exact hrefused
  | ok r =>
    obtain ⟨w, changed⟩ := r
    cases changed with
    | true => exact absurd ⟨v, w, hv, hset⟩ hquiet
    | false =>
      -- the variable takes the value and keeps its revision
      show s.graph.SameApart (s.graph.setObject id (.var w)).advance
      intro x
      rw [Graph.nodes_advance, Graph.getElem?_setObject]
      by_cases hx : id = x
      · subst hx
        obtain ⟨n, hn, hobject⟩ := Graph.find?_eq_some_iff.1 hv
        rw [if_pos rfl, hn]
        simp [hobject, Variable.withoutValue_of_setValue hset]
      · rw [if_neg hx]

/-- **Quiet assignments** leave a graph the same apart from values. -/
theorem Revalues.sameApart (h : Revalues s t) : s.graph.SameApart t.graph := by
  induction h with
  | refl => exact .refl _
  | setValue _ id value hquiet ih => exact ih.trans (sameApart_setValue hquiet)

end Store

end ShaderLink
