import ShaderLink.Proofs.Store.Session

/-!
# Identifiers and kinds

An identifier is given to one object, and whatever becomes of that object, in whatever graphs copies
of it are, a variable stays one and nothing else becomes one (`Session.Typed.uniform`). So the
varyings that the main codes of a session assign are variables in every graph that has them
(`Session.Typed.outputs`).
-/

namespace ShaderLink

/-! ### Main codes -/

namespace StageMain

variable {m m' : StageMain} {s t : Store} {target code : String} {varying e : ObjectId}

/-- **A main code is made** of dedented code. -/
theorem ofCode_eq_ok_iff : ofCode code = .ok m ↔
    ∃ dedented, Text.dedent code.toList = some dedented ∧
      m = { template := Template.ofChars dedented, staticNames := declaredNames dedented
            attachments := [], outputs := [] } := by
  unfold ofCode
  cases Text.dedent code.toList with
  | none => simp
  | some dedented => simp [eq_comm]

/-- An assignment sets an output. -/
theorem eq_of_assign (h : m.assign target e = .ok m') :
    m' = { m with outputs := setOutput (.builtin target) e m.outputs } := by
  unfold assign at h
  split at h
  · cases h
    rfl
  · cases h

/-- An assignment of a varying sets an output, and the varying is a variable. -/
theorem eq_of_assignVarying (h : (m.assignVarying varying e).run s = .ok m' t) :
    m' = { m with outputs := setOutput (.varying varying) e m.outputs } ∧
      ∃ v, s.graph.find? varying = some (.var v) := by
  unfold assignVarying at h
  rw [EStateM.run_bind, Store.run_ask] at h
  cases hv : s.graph.getVariable varying with
  | error e => simp [hv] at h
  | ok v =>
    refine ⟨?_, v, Graph.getVariable_eq_ok_iff.1 hv⟩
    by_cases hq : v.qualifier = some .varying
    · simp only [hv, hq, if_true, EStateM.run_bind] at h
      cases hl : (Store.link varying e).run s with
      | ok _ t' =>
        rw [hl] at h
        cases h
        rfl
      | error _ t' => rw [hl] at h; cases h
    · simp [hv, hq] at h

end StageMain

namespace Session

variable {σ : Session} {x : ObjectId} {o o' : Object} {k : Nat}

/-- Whether an object is in some graph or at hand under an identifier. -/
def Holds (σ : Session) (x : ObjectId) (o : Object) : Prop :=
  (∃ k, (σ.graphs k).find? x = some o) ∨ (x, o) ∈ σ.loose

/-- A session in which the objects of an identifier are all variables or none of them is, and in
which main codes assign variables only. -/
structure Typed (σ : Session) : Prop where
  uniform : ∀ x o o', σ.Holds x o → σ.Holds x o' → (o.IsVariable ↔ o'.IsVariable)
  outputs : ∀ m ∈ σ.mains, ∀ id e, (.varying id, e) ∈ m.outputs →
    id.index < σ.fresh.index ∧ ∀ o, σ.Holds id o → o.IsVariable

theorem Lawful.lt_fresh (h : σ.Lawful) (hx : σ.Holds x o) : x.index < σ.fresh.index := by
  obtain ⟨k, hk⟩ | hl := hx
  · exact (h.store k).bounded x (Graph.mem_ids_of_find? hk)
  · exact (h.loose _ hl).2

theorem holds_setStore {s : Store} (h : (σ.setStore k s).Holds x o) :
    s.graph.find? x = some o ∨ σ.Holds x o := by
  obtain ⟨j, hj⟩ | hl := h
  · by_cases hjk : j = k
    · subst hjk
      exact .inl (by simpa [setStore] using hj)
    · exact .inr (.inl ⟨j, by simpa [setStore, hjk] using hj⟩)
  · exact .inr (.inr hl)

/-- Where an object after an action comes from: from one of the same kind, or it is the one object
that the action made under its identifier. -/
def Source (σ : Session) (made : ObjectId → Option Object) (x : ObjectId) (o' : Object) : Prop :=
  (∃ o, σ.Holds x o ∧ (o.IsVariable ↔ o'.IsVariable)) ∨
    (σ.fresh.index ≤ x.index ∧ made x = some o')

theorem source_of_evolves {s : Store} {flip : Prop} (hs : Store.Evolves flip (σ.store k) s)
    (h : (σ.setStore k s).Holds x o') : σ.Source s.graph.find? x o' := by
  obtain hx | hx := holds_setStore h
  · by_cases hnew : σ.fresh.index ≤ x.index
    · exact .inr ⟨hnew, hx⟩
    · obtain ⟨o, ho, hiff⟩ := Graph.Steps.isVariable hs.steps (fun hn => hnew hn.1) hx
      exact .inl ⟨o, .inl ⟨k, ho⟩, hiff⟩
  · exact .inl ⟨o', hx, Iff.rfl⟩

/-- An object that is added was at hand. -/
theorem source_of_add {id : ObjectId} {made : ObjectId → Option Object} (ho : (id, o) ∈ σ.loose)
    (h : ((Action.add k id o).perform σ).Holds x o') : σ.Source made x o' := by
  refine .inl ?_
  obtain hx | hx := holds_setStore h
  · obtain hsame | ⟨o₁, hr, hsame⟩ := Store.stateAfter_add id o (σ.store k)
    · rw [hsame] at hx
      exact ⟨o', .inl ⟨k, hx⟩, Iff.rfl⟩
    · rw [hsame] at hx
      by_cases hid : id = x
      · subst hid
        rw [Graph.find?_insert_self] at hx
        obtain rfl := Option.some.inj hx
        exact ⟨o, .inr ho, ((Object.Kept.refl o).retyped hr).isVariable_iff⟩
      · rw [Graph.find?_insert_of_ne hid] at hx
        exact ⟨o', .inl ⟨k, hx⟩, Iff.rfl⟩
  · exact ⟨o', hx, Iff.rfl⟩

/-- **Every object after an action has a source.** -/
theorem exists_source {a : Action} (hσ : σ.Lawful) (ha : a.Possible σ) :
    ∃ made, ∀ x o', (a.perform σ).Holds x o' → σ.Source made x o' := by
  cases a with
  | edit k op => exact ⟨_, fun x o' => source_of_evolves (op.evolves (hσ.store k))⟩
  | assignVarying k m varying expression =>
    refine ⟨_, fun x o' h => source_of_evolves (k := k)
      (m.evolves_assignVarying (hσ.store k) varying expression) ?_⟩
    rw [perform_assignVarying] at h
    exact h
  | add k id o => exact ⟨fun _ => none, fun x o' => source_of_add ha⟩
  | make o =>
    -- what is made is at hand under the next identifier
    refine ⟨fun _ => some o, fun x o' h => ?_⟩
    obtain hx | hx := h
    · exact .inl ⟨o', .inl hx, Iff.rfl⟩
    · obtain hx | hx := List.mem_cons.1 hx
      · cases hx
        exact .inr ⟨Nat.le_refl _, rfl⟩
      · exact .inl ⟨o', .inr hx, Iff.rfl⟩
  | copy k id =>
    refine ⟨fun _ => none, fun x o' h => .inl ?_⟩
    obtain hx | hx := h
    · exact ⟨o', .inl hx, Iff.rfl⟩
    · obtain hx | hx := List.mem_append.1 hx
      · simp only [Option.mem_toList, Option.map_eq_some_iff] at hx
        obtain ⟨o, ho, heq⟩ := hx
        cases heq
        exact ⟨o', .inl ⟨k, ho⟩, Iff.rfl⟩
      · exact ⟨o', .inr hx, Iff.rfl⟩
  | alter id old new =>
    refine ⟨fun _ => none, fun x o' h => .inl ?_⟩
    obtain hx | hx := h
    · exact ⟨o', .inl hx, Iff.rfl⟩
    · obtain hx | hx := List.mem_cons.1 hx
      · cases hx
        exact ⟨old, .inr ha.1, ha.2.isVariable_iff⟩
      · exact ⟨o', .inr hx, Iff.rfl⟩
  | _ => exact ⟨fun _ => none, fun x o' h => .inl ⟨o', h, Iff.rfl⟩⟩

/-! ### What main codes assign -/

theorem mem_setOutput {output : Output} {e : ObjectId} {l : List (Output × ObjectId)}
    {p : Output × ObjectId} (h : p ∈ StageMain.setOutput output e l) : p ∈ l ∨ p.1 = output := by
  induction l with
  | nil =>
    obtain rfl := List.mem_singleton.1 h
    exact .inr rfl
  | cons q l ih =>
    rw [StageMain.setOutput] at h
    split at h
    · obtain rfl | h := List.mem_cons.1 h
      · exact .inr (by assumption)
      · exact .inl (List.mem_cons_of_mem _ h)
    · obtain rfl | h := List.mem_cons.1 h
      · exact .inl List.mem_cons_self
      · exact (ih h).imp_left (List.mem_cons_of_mem _)

/-- A varying that a main code assigns after an action was assigned before by one of the main codes
at hand, or is a variable of some graph. -/
theorem outputs_perform {a : Action} (ha : a.Possible σ) {m : StageMain}
    (hm : m ∈ (a.perform σ).mains) {id e : ObjectId} (hid : (.varying id, e) ∈ m.outputs) :
    (∃ m' ∈ σ.mains, ∃ e', (.varying id, e') ∈ m'.outputs) ∨
      ∃ k v, (σ.graphs k).find? id = some (.var v) := by
  cases a with
  | readMain code =>
    -- a main code that has just been read assigns nothing yet
    obtain hm | hm := List.mem_append.1 hm
    · cases hcode : StageMain.ofCode code with
      | error e => simp [hcode, Except.toOption] at hm
      | ok m' =>
        obtain rfl : m = m' := by simpa [hcode, Except.toOption] using hm
        obtain ⟨dedented, -, rfl⟩ := StageMain.ofCode_eq_ok_iff.1 hcode
        cases hid
    · exact .inl ⟨m, hm, e, hid⟩
  | attach m' attachment =>
    obtain rfl | hm := List.mem_cons.1 hm
    · exact .inl ⟨m', ha, e, hid⟩
    · exact .inl ⟨m, hm, e, hid⟩
  | assign m' target expression =>
    -- the output that is added is a builtin one
    obtain hm | hm := List.mem_append.1 hm
    · cases hassign : m'.assign target expression with
      | error e => simp [hassign, Except.toOption] at hm
      | ok m'' =>
        obtain rfl : m = m'' := by simpa [hassign, Except.toOption] using hm
        rw [StageMain.eq_of_assign hassign] at hid
        obtain hid | hid := mem_setOutput hid
        · exact .inl ⟨m', ha, e, hid⟩
        · cases hid
    · exact .inl ⟨m, hm, e, hid⟩
  | assignVarying k m' varying expression =>
    dsimp only [Action.perform] at hm
    cases hrun : (m'.assignVarying varying expression).run (σ.store k) with
    | error _ s =>
      rw [hrun] at hm
      exact .inl ⟨m, hm, e, hid⟩
    | ok m'' s =>
      rw [hrun] at hm
      -- the varying that is added was found in the graph as a variable
      obtain ⟨rfl, v, hv⟩ := StageMain.eq_of_assignVarying hrun
      obtain rfl | hm := List.mem_cons.1 hm
      · obtain hid | hid := mem_setOutput hid
        · exact .inl ⟨m', ha, e, hid⟩
        · cases hid
          exact .inr ⟨k, v, hv⟩
      · exact .inl ⟨m, hm, e, hid⟩
  | _ => exact .inl ⟨m, hm, e, hid⟩

/-! ### The invariant -/

theorem typed_empty : Typed empty where
  uniform := fun x o o' h => by
    obtain ⟨k, hk⟩ | hl := h
    · simp [empty, Graph.empty, Graph.find?] at hk
    · cases hl
  outputs := nofun

/-- **Actions keep sessions typed.** -/
theorem Typed.perform (hσ : σ.Lawful) (h : σ.Typed) {a : Action} (ha : a.Possible σ) :
    (a.perform σ).Typed := by
  obtain ⟨made, hmade⟩ := exists_source hσ ha
  -- what is held under an identifier handed out before is of the kind it was
  have hold : ∀ x o o', σ.Holds x o → (a.perform σ).Holds x o' →
      (o.IsVariable ↔ o'.IsVariable) := by
    intro x o o' ho ho'
    obtain ⟨o₁, ho₁, hiff⟩ | ⟨hnew, -⟩ := hmade x o' ho'
    · exact (h.uniform x o o₁ ho ho₁).trans hiff
    · exact absurd (hσ.lt_fresh ho) (Nat.not_lt.2 hnew)
  refine { uniform := fun x o o' ho ho' => ?_, outputs := fun m hm id e hid => ?_ }
  · obtain ⟨o₁, ho₁, hiff⟩ | ⟨hnew, hx⟩ := hmade x o ho
    · exact hiff.symm.trans (hold x o₁ o' ho₁ ho')
    · -- an action makes one object under an identifier, so both are the one that it made
      obtain ⟨o₁, ho₁, -⟩ | ⟨-, hx'⟩ := hmade x o' ho'
      · exact absurd (hσ.lt_fresh ho₁) (Nat.not_lt.2 hnew)
      · rw [hx] at hx'
        exact Option.some.inj hx' ▸ Iff.rfl
  · have hfresh := fresh_le_perform hσ ha
    obtain ⟨m', hm', e', hid'⟩ | ⟨k, v, hv⟩ := outputs_perform ha hm hid
    · obtain ⟨hlt, hvar⟩ := h.outputs m' hm' id e' hid'
      refine ⟨Nat.lt_of_lt_of_le hlt hfresh, fun o' ho' => ?_⟩
      -- the identifier was handed out before, so nothing is made under it
      obtain ⟨o, ho, hiff⟩ | ⟨hnew, -⟩ := hmade id o' ho'
      · exact hiff.1 (hvar o ho)
      · exact absurd hlt (Nat.not_lt.2 hnew)
    · have hv : σ.Holds id (.var v) := .inl ⟨k, hv⟩
      exact ⟨Nat.lt_of_lt_of_le (hσ.lt_fresh hv) hfresh, fun o' ho' =>
        (hold id _ o' hv ho').1 ⟨v, rfl⟩⟩

theorem Reachable.typed (h : Reachable σ) : σ.Typed := by
  induction h with
  | empty => exact typed_empty
  | act h a ha ih => exact ih.perform h.lawful ha

/-- A varying that a main code of a session assigns is a variable wherever it is. -/
theorem Typed.emitted_of_output (h : σ.Typed) {m : StageMain} (hm : m ∈ σ.mains) {id e : ObjectId}
    (hid : (.varying id, e) ∈ m.outputs) (ho : (σ.graphs k).find? id = some o) :
    o.emitted = true := by
  obtain ⟨v, rfl⟩ := (h.outputs m hm id e hid).2 o (.inl ⟨k, ho⟩)
  rfl

end Session

end ShaderLink
