import ShaderLink.Proofs.Outcome
import ShaderLink.Store.Edits

/-!
# What edits ask before they change anything

An edit asks the graph for what it needs and is refused if there is no answer (`Store.ask`), or if
it would close a circle (`Store.checkAcyclic`). Asking leaves the store as it is, so what holds of
the store holds of it after a question that was refused, and an edit can be taken up after a question
that was answered (`Store.stateAfter_read`).
-/

namespace ShaderLink.Store

variable {α β : Type} {s t : Store}

/-- What leaves the store as it is can be passed over. -/
theorem stateAfter_read {p : Store → Prop} (hp : p s) {x : Edit α} {f : α → Edit β}
    (hx : stateAfter x s = s) (h : ∀ a, x.run s = .ok a s → p (stateAfter (f a) s)) :
    p (stateAfter (x >>= f) s) := by
  rw [stateAfter_bind]
  cases hr : x.run s with
  | ok a t =>
    obtain rfl : t = s := (stateAfter_eq_of_ok hr).symm.trans hx
    exact h a hr
  | error e t =>
    obtain rfl : t = s := (stateAfter_eq_of_error hr).symm.trans hx
    exact hp

theorem run_ask (q : Graph → Except LinkError α) (s : Store) :
    (ask q).run s = match q s.graph with
      | .ok a => .ok a s
      | .error e => .error e s := by
  unfold ask
  rw [EStateM.run_bind, EStateM.run_get]
  cases h : q s.graph <;> simp [h]

@[simp] theorem stateAfter_ask (q : Graph → Except LinkError α) (s : Store) :
    stateAfter (ask q) s = s := by
  unfold stateAfter
  rw [run_ask]
  cases q s.graph <;> rfl

theorem of_run_ask {q : Graph → Except LinkError α} {a : α} (h : (ask q).run s = .ok a t) :
    q s.graph = .ok a := by
  rw [run_ask] at h
  cases hq : q s.graph with
  | ok b =>
    rw [hq] at h
    cases h
    rfl
  | error e =>
    rw [hq] at h
    cases h

theorem run_ask_bind {q : Graph → Except LinkError α} {k : α → Edit β} {a : α}
    (h : q s.graph = .ok a) : (ask q >>= k).run s = (k a).run s := by
  rw [EStateM.run_bind, run_ask, h]

/-- What answers a question goes on with the answer. -/
theorem of_run_ask_bind {q : Graph → Except LinkError α} {k : α → Edit β} {b : β}
    (h : (ask q >>= k).run s = .ok b t) : ∃ a, q s.graph = .ok a ∧ (k a).run s = .ok b t := by
  obtain ⟨a, u, hask, hrest⟩ := run_bind_eq_ok_iff.1 h
  obtain rfl : u = s := (stateAfter_eq_of_ok hask).symm.trans (stateAfter_ask q s)
  exact ⟨a, of_run_ask hask, hrest⟩

/-- An answer of the graph is the same for the rest of the edit. -/
theorem stateAfter_ask_bind {p : Store → Prop} (hp : p s) {q : Graph → Except LinkError α}
    {f : α → Edit β} (h : ∀ a, q s.graph = .ok a → p (stateAfter (f a) s)) :
    p (stateAfter (ask q >>= f) s) :=
  stateAfter_read hp (stateAfter_ask q s) fun a ha => h a (of_run_ask ha)

theorem stateAfter_ofExcept_bind {p : Store → Prop} (hp : p s) {x : Except LinkError α}
    {f : α → Edit β} (h : ∀ a, x = .ok a → p (stateAfter (f a) s)) :
    p (stateAfter (MonadExcept.ofExcept x >>= f) s) := by
  cases x with
  | ok a => exact h a rfl
  | error e => exact hp

/-- Asking for each of some things leaves the store as it is. -/
theorem stateAfter_askEach {γ : Type} (l : List γ) (q : γ → Graph → Except LinkError α)
    (s : Store) : stateAfter (forIn l PUnit.unit fun x _ => do
      let _ ← ask (q x)
      pure (.yield PUnit.unit)) s = s := by
  induction l with
  | nil => rfl
  | cons x l ih =>
    rw [List.forIn_cons, stateAfter_bind, EStateM.run_bind, run_ask]
    cases q x s.graph with
    | ok a => exact ih
    | error e => rfl

/-- What each of some things was asked for has an answer, unless asking failed. -/
theorem exists_of_askEach {γ : Type} {l : List γ} {q : γ → Graph → Except LinkError α} {u : PUnit}
    (h : (forIn l PUnit.unit fun x _ => do
      let _ ← ask (q x)
      pure (.yield PUnit.unit) : Edit PUnit).run s = .ok u s) :
    ∀ x ∈ l, ∃ a, q x s.graph = .ok a := by
  induction l with
  | nil => exact fun x hx => absurd hx List.not_mem_nil
  | cons y l ih =>
    rw [List.forIn_cons, EStateM.run_bind, EStateM.run_bind, run_ask] at h
    cases hy : q y s.graph with
    | error e =>
      rw [hy] at h
      cases h
    | ok a =>
      rw [hy] at h
      intro x hx
      obtain rfl | hx := List.mem_cons.1 hx
      · exact ⟨a, hy⟩
      · exact ih h x hx

/-! ### Circles -/

theorem run_checkAcyclic (source target : ObjectId) (s : Store) :
    (checkAcyclic source target).run s =
      if target = source || s.graph.reaches target source then
        .error (.cyclicDependency source) s
      else .ok () s := by
  change (if _ then _ else _ : Edit Unit).run s = _
  split <;> rfl

theorem stateAfter_checkAcyclic (source target : ObjectId) (s : Store) :
    stateAfter (checkAcyclic source target) s = s := by
  have hrun := run_checkAcyclic source target s
  split at hrun
  · exact stateAfter_eq_of_error hrun
  · exact stateAfter_eq_of_ok hrun

/-- What is not refused is not the object itself and does not depend on it. -/
theorem of_checkAcyclic {source target : ObjectId} {u : Unit}
    (h : (checkAcyclic source target).run s = .ok u s) :
    target ≠ source ∧ ¬ s.graph.reaches target source := by
  rw [run_checkAcyclic] at h
  split at h
  · cases h
  · next hfree => simpa using hfree

end ShaderLink.Store
