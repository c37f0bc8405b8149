import ShaderLink.Proofs.Store.Session

/-!
# The generation tells graphs apart

Whoever has linked a graph keeps its generation, and links again when the generation is another. For
that, nothing may change in a graph behind the back of its generation.

An action either leaves a graph exactly as it was or raises its generation (`Session.Lawful.counted`),
also if it fails halfway, and also if it adds an object in the place of another. Over a history of
actions the generation is therefore never again what it was with another graph
(`Session.generation_detects_change`).
-/

namespace ShaderLink

namespace Graph

/-- A graph stays exactly as it is, or its generation grows. -/
def Counted (g g' : Graph) : Prop := g' = g ∨ g.generation < g'.generation

variable {g g' g'' : Graph}

theorem Counted.refl (g : Graph) : Counted g g := .inl rfl

theorem Counted.trans (h : Counted g g') (h' : Counted g' g'') : Counted g g'' := by
  obtain rfl | hlt := h
  · exact h'
  · obtain rfl | hlt' := h'
    · exact .inr hlt
    · exact .inr (Nat.lt_trans hlt hlt')

theorem Counted.eq_of_generation (h : Counted g g') (hgen : g'.generation = g.generation) :
    g' = g :=
  h.resolve_right fun hlt => Nat.ne_of_gt hlt hgen

/-- A step raises the generation, so a number of steps is counted. -/
theorem Steps.counted {new : ObjectId → Prop} {flip : Prop} (h : Steps new flip g g') :
    Counted g g' := by
  obtain hlt | hgen := Nat.lt_or_eq_of_le h.generation_le
  · exact .inr hlt
  · exact .inl (h.eq_of_generation hgen.symm)

end Graph

/-- Adding an object is counted, also in the place of one that is there. -/
theorem Store.counted_add (id : ObjectId) (o : Object) (s : Store) :
    s.graph.Counted (stateAfter (add id o) s).graph := by
  obtain h | ⟨o', -, h⟩ := stateAfter_add id o s
  · exact .inl (congrArg Store.graph h)
  · rw [h]
    exact .inr (by simp)

namespace Session

variable {σ τ : Session}

/-- **An action is counted** by every graph of a lawful session. -/
theorem Lawful.counted (h : σ.Lawful) {a : Action} (ha : a.Possible σ) (k : Nat) :
    (σ.graphs k).Counted ((a.perform σ).graphs k) := by
  obtain ⟨id, o, rfl, hgraph⟩ | hadds := a.adds_cases σ k
  · rw [hgraph]
    exact Store.counted_add id o (σ.store k)
  · have hedited := Action.edited h ha hadds
    exact Graph.Steps.counted hedited.steps

/-- Some action leads from one session to the next. -/
def Leads (σ τ : Session) : Prop := ∃ a : Action, a.Possible σ ∧ τ = a.perform σ

/-- What happens to a session, action after action. -/
abbrev History : Session → Session → Prop := Relation.ReflTransGen Leads

/-- A history is counted from where it starts to where it ends. -/
theorem Lawful.history (h : σ.Lawful) (hτ : History σ τ) :
    τ.Lawful ∧ ∀ k, (σ.graphs k).Counted (τ.graphs k) := by
  induction hτ with
  | refl => exact ⟨h, fun k => .refl _⟩
  | tail _ hlast ih =>
    obtain ⟨a, ha, rfl⟩ := hlast
    exact ⟨ih.1.perform ha, fun k => (ih.2 k).trans (ih.1.counted ha k)⟩

/-- **The generation detects every change.** Whatever is done in a session, and whether it answers
or fails, each graph either has the objects, revisions, references and generation that it had, or a
greater generation. So if a graph has the same generation at two points of a history, it is the same
graph. -/
theorem generation_detects_change (h : σ.Reachable) (k : Nat) :
    (∀ a : Action, a.Possible σ → (a.perform σ).graphs k = σ.graphs k ∨
      (σ.graphs k).generation < ((a.perform σ).graphs k).generation) ∧
    ∀ τ, History σ τ → (τ.graphs k).generation = (σ.graphs k).generation →
      τ.graphs k = σ.graphs k :=
  ⟨fun _ ha => h.lawful.counted ha k,
    fun _ hτ hgen => ((h.lawful.history hτ).2 k).eq_of_generation hgen⟩

/-- A session in which the only member of a chain is gone. -/
def memberlessSession : Session :=
  empty.edited 0 [.function "float $f(float a) { return a; }",
    .function "float $g(float a) { return a; }", .chain "both" true [⟨1⟩], .remove ⟨1⟩]

/-- Appending to the chain fails as no types can be derived, but the member is there by then: the
graph is another, and so is its generation. An edit that is refused leaves the graph as it is. -/
theorem generation_detects_failed_append : memberlessSession.Reachable ∧
    (failure? (Store.append ⟨3⟩ ⟨2⟩) (memberlessSession.store 0)).isSome ∧
    (memberlessSession.graphs 0).generation <
      (((Action.edit 0 (.append ⟨3⟩ ⟨2⟩)).perform memberlessSession).graphs 0).generation ∧
    ((Action.edit 0 (.append ⟨3⟩ ⟨3⟩)).perform memberlessSession).graphs 0 =
      memberlessSession.graphs 0 := by
  have hany : ReachableBy (fun _ _ => True) memberlessSession :=
    ReachableBy.empty.edited fun _ _ _ => trivial
  have hreachable := hany.reachable
  obtain ⟨hstep, hhistory⟩ := generation_detects_change hreachable 0
  refine ⟨hreachable, by decide +kernel, ?_, ?_⟩
  · -- the chain has another member than before
    refine (hstep (.edit 0 (.append ⟨3⟩ ⟨2⟩)) trivial).resolve_left fun hsame => ?_
    have hmembers : (((Action.edit 0 (.append ⟨3⟩ ⟨2⟩)).perform memberlessSession).graphs 0).find?
        ⟨3⟩ ≠ (memberlessSession.graphs 0).find? ⟨3⟩ := by decide +kernel
    exact hmembers (by rw [hsame])
  · -- the generation has stayed what it was
    exact hhistory _ (.single ⟨.edit 0 (.append ⟨3⟩ ⟨3⟩), trivial, rfl⟩) (by decide +kernel)

end Session

end ShaderLink
