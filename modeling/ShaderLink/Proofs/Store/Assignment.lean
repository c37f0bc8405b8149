import ShaderLink.Proofs.Store.Failure
import ShaderLink.Proofs.Store.Hereditary

/-!
# Values that variables are given

The state of a variable counts the values it was given. An action raises the state of the variable
that it assigns a value to, if there is one (`Session.Action.state_lt`), and leaves the states of
all others as they are (`Session.Action.state_eq`). So the state tells whether a variable was
assigned a value in between, even if that is the value it had.
-/

namespace ShaderLink

/-- A variable under an identifier has a certain state. -/
def Object.InState (x : ObjectId) (n : Nat) (y : ObjectId) (o : Object) : Prop :=
  y = x → ∀ v, o = .var v → v.state = n

variable {x : ObjectId} {n : Nat}

/-- A state is handed on by everything but giving the variable a value. -/
theorem hereditary_inState :
    Hereditary (Object.InState x n) (· ≠ x) (· ≠ x) fun _ => True where
  made := fun hne _ heq => absurd heq hne
  call := fun _ hne heq => absurd heq hne
  function := fun _ _ _ _ hv => by cases hv
  replace := fun _ _ _ _ _ hv => by cases hv
  link := fun {_ v} _ h heq w hw => by
    obtain rfl := Object.var.inj hw
    exact h heq v rfl
  value := fun hne _ _ heq => absurd heq hne
  members := fun _ _ _ _ _ hv => by cases hv
  types := fun _ _ _ _ _ hv => by cases hv

theorem Graph.all_inState {g : Graph} (h : ∀ v, g.find? x = some (.var v) → v.state = n) :
    g.All (Object.InState x n) := by
  rintro y o ho rfl v rfl
  exact h v ho

namespace Store

variable {s t : Store} {v : Variable} {value : Value} {f : ObjectId} {placeholder : String}

/-- A value that is taken raises the state. -/
theorem state_setValue (hv : s.graph.find? x = some (.var v))
    (h : (setValue x value).run s = .ok () t) :
    ∃ w, t.graph.find? x = some (.var w) ∧ w.state = v.state + 1 := by
  obtain ⟨v', hv', h⟩ := of_run_ask_bind h
  obtain rfl : v = v' := Except.ok.inj ((Graph.getVariable_eq_ok_iff.2 hv).symm.trans hv')
  cases hr : v.setValue value with
  | error e =>
    rw [hr] at h
    cases h
  | ok r =>
    obtain ⟨w, changed⟩ := r
    rw [hr] at h
    cases h
    have hfind : (s.graph.setObject x (.var w)).find? x = some (.var w) :=
      Graph.find?_setObject_self hv _
    refine ⟨w, ?_, Variable.state_of_setValue hr⟩
    cases changed with
    | true => exact Graph.find?_touch_of_not_chain x hfind nofun
    | false => exact hfind

/-- What is made to be bound has the identifier that comes next. -/
theorem of_run_bindValued {name : String} (h : (do
      let id ← valued name value
      bind f placeholder id
      return id : Edit ObjectId).run s = .ok x t) : x = s.fresh := by
  obtain ⟨id, u, hid, hrest⟩ := run_bind_eq_ok_iff.1 h
  obtain ⟨_, u', -, hreturn⟩ := run_bind_eq_ok_iff.1 hrest
  cases hreturn
  cases hid
  rfl

/-- **Assigning a value** makes a new variable, or gives the value to the one that is bound. -/
theorem of_run_assign (hs : s.Lawful) (h : (assign f placeholder value).run s = .ok x t) :
    x = s.fresh ∨ (setValue x value).run s = .ok () t := by
  obtain ⟨snippet, -, h⟩ := of_run_ask_bind h
  dsimp only at h
  split at h
  · cases hbound : snippet.bindings[placeholder]? with
    | none =>
      rw [hbound] at h
      exact .inl (of_run_bindValued h)
    | some bound =>
      rw [hbound] at h
      obtain ⟨o, -, h⟩ := of_run_ask_bind h
      cases o with
      | var v =>
        obtain ⟨_, u, hset, h⟩ := run_bind_eq_ok_iff.1 h
        cases h
        exact .inr hset
      | _ =>
        -- what is bound makes way for a new variable
        obtain ⟨_, u, hunbind, h⟩ := run_bind_eq_ok_iff.1 h
        have hfreed : Rebound f s u := stateAfter_eq_of_ok hunbind ▸ rebound_unbind hs f placeholder
        exact .inl ((of_run_bindValued h).trans hfreed.fresh_eq)
  · cases h

end Store

/-- **The state of the variable that an edit assigns a value to is raised.** -/
theorem Operation.state_lt {s : Store} {op : Operation} {v w : Variable} (hs : s.Lawful)
    (h : op.assigned? s = some x) (hx : x ≠ s.fresh) (hv : s.graph.find? x = some (.var v))
    (hw : (op.perform s).graph.find? x = some (.var w)) : v.state < w.state := by
  -- either way a value of the variable is set
  obtain ⟨value, t, hset, ht⟩ : ∃ value t, (Store.setValue x value).run s = .ok () t ∧
      op.perform s = t := by
    cases op with
    | setValue id value =>
      obtain ⟨_, hset, rfl⟩ := Option.map_eq_some_iff.1 h
      obtain ⟨t, ht⟩ := exists_run_of_outcome (Except.toOption_eq_some_iff.1 hset)
      exact ⟨value, t, ht, stateAfter_eq_of_ok ht⟩
    | assign f placeholder value =>
      obtain ⟨t, ht⟩ := exists_run_of_outcome (Except.toOption_eq_some_iff.1 h)
      exact ⟨value, t, (Store.of_run_assign hs ht).resolve_left hx, stateAfter_eq_of_ok ht⟩
    | _ => cases h
  obtain ⟨w', hw', hstate⟩ := Store.state_setValue hv hset
  rw [ht, hw'] at hw
  cases hw
  omega

namespace Session

variable {σ : Session} {k : Nat} {a : Action} {v w : Variable}

theorem Lawful.fresh_ne (h : σ.Lawful) (hx : x ∈ (σ.graphs k).ids) : x ≠ σ.fresh := by
  rintro rfl
  exact absurd ((h.store k).bounded _ hx) (Nat.lt_irrefl _)

/-- **An action raises the state of the variable that it assigns a value to.** -/
theorem Action.state_lt (hσ : σ.Lawful) (h : a.assigned? σ k = some x)
    (hv : (σ.graphs k).find? x = some (.var v))
    (hw : ((a.perform σ).graphs k).find? x = some (.var w)) : v.state < w.state := by
  have hx := hσ.fresh_ne (Graph.mem_ids_of_find? hv)
  cases a with
  | edit j op =>
    by_cases hj : j = k
    · subst hj
      rw [Action.assigned?, if_pos rfl] at h
      rw [Action.perform, graphs_setStore] at hw
      exact op.state_lt (hσ.store j) h hx hv hw
    · rw [Action.assigned?, if_neg hj] at h
      cases h
  | _ => cases h

/-- **An action leaves the state of any other variable as it is**, as long as it adds nothing in its
place. -/
theorem Action.state_eq (hσ : σ.Lawful) (h : a.assigned? σ k ≠ some x) (hadd : ¬ a.Adds k x)
    (hv : (σ.graphs k).find? x = some (.var v))
    (hw : ((a.perform σ).graphs k).find? x = some (.var w)) : w.state = v.state := by
  have hold : (σ.graphs k).All (Object.InState x v.state) := Graph.all_inState fun v' hv' => by
    rw [hv] at hv'
    cases hv'
    rfl
  have hnew : ((a.perform σ).graphs k).All (Object.InState x v.state) := by
    refine Action.all_perform hσ hereditary_inState ?_ ?_ ?_ (fun _ _ _ => trivial) hold
    · exact (hσ.fresh_ne (Graph.mem_ids_of_find? hv)).symm
    · rintro y o ha rfl
      exact absurd ⟨o, ha⟩ hadd
    · rintro y hy rfl
      exact h hy
  exact hnew x _ hw rfl w rfl

end Session

end ShaderLink
