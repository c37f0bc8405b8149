import ShaderLink.Proofs.Graph.TypeWalk
import ShaderLink.Proofs.Graph.Values
import ShaderLink.Proofs.Linker.Emission
import ShaderLink.Proofs.Store.Assignment

/-!
# What giving a value does to a variable

A value that a variable accepts is stored, and everybody is told if the variable says that its
definition has changed (`Store.of_run_setValue`).

Values are told apart by equality of numbers, and definitions by their texts. The two agree except
for the zeros: where no change is reported the definition stays the same text unless one zero takes
the place of the other in a constant, and then it never does
(`Session.unreported_value_keeps_definition`).

A value that is accepted leaves its variable valid, and a declared variable what it was declared, with
one exception: a constant takes any value of its type, also a buffer that was registered with that
type, and a buffer has no literal (`Store.accepted_value_validates`).
-/

namespace ShaderLink

/-! ### Literals of the zeros -/

/-- The two zeros are written differently: one of them has a sign. -/
theorem Value.literal_ne_of_oppositeZeros {a b : Value} (h : a.OppositeZeros b) :
    a.literal ≠ b.literal := by
  obtain ⟨n, r, m, s, rfl, rfl, hr, hs, hnm⟩ : ∃ n r m s, a = float (.number n r) ∧
      b = float (.number m s) ∧ r.val = 0 ∧ s.val = 0 ∧ n ≠ m := by
    unfold OppositeZeros at h
    split at h
    · exact ⟨_, _, _, _, rfl, rfl, h⟩
    · exact h.elim
  obtain rfl : r = s := Fin.ext (hr.trans hs.symm)
  intro heq
  -- the texts behind the sign are the same, so the signs would be
  have hwrite := congrArg String.toList (Option.some.inj heq)
  rw [number, number, String.toList_ofList, String.toList_ofList, Single.write, Single.write,
    List.append_cancel_right_eq] at hwrite
  cases n <;> cases m <;> simp at hwrite hnm

namespace Variable

variable {v w : Variable} {value : Value} {changed : Bool}

/-- A declared variable accepts no value that would change what it was declared to be. -/
theorem declared_of_setValue (h : v.setValue value = .ok (w, changed)) (hd : v.declared = true) :
    w.qualifier = v.qualifier ∧ w.type = v.type := by
  unfold setValue at h
  split at h
  · simp at h
  · obtain ⟨-, -, h⟩ := Except.bind_eq_ok_iff.1 h
    obtain ⟨rfl, -⟩ := Prod.mk.inj (Except.ok.inj h)
    exact ⟨rfl, rfl⟩
  · rw [if_pos hd] at h
    split at h
    · obtain ⟨-, -, h⟩ := Except.bind_eq_ok_iff.1 h
      obtain ⟨rfl, -⟩ := Prod.mk.inj (Except.ok.inj h)
      exact ⟨rfl, rfl⟩
    · simp at h

/-- Whatever accepts a value has the type of the value then. -/
theorem type_of_setValue (h : v.setValue value = .ok (w, changed)) :
    w.type = some value.type ∧ (w.qualifier = some .const ↔ v.qualifier = some .const) := by
  obtain ⟨hq, ht, rfl, -⟩ | ⟨hq, rfl, -⟩ := setValue_cases h
  · exact ⟨ht, Iff.rfl⟩
  · exact ⟨rfl, iff_of_false (fun hc => ne_const_of_value value (Option.some.inj hc)) hq⟩

/-- It has a qualifier as well. -/
theorem exists_qualifier_of_setValue (h : v.setValue value = .ok (w, changed)) :
    ∃ q, w.qualifier = some q := by
  obtain ⟨hq, -, rfl, -⟩ | ⟨-, rfl, -⟩ := setValue_cases h
  · exact ⟨_, hq⟩
  · exact ⟨_, rfl⟩

end Variable

namespace Graph

variable {g g' : Graph} {id : ObjectId} {v : Variable} {q : Qualifier} {type code : String}
  {names : Names}

/-! ### Types do not look at values -/

theorem SameApart.typeStep_eq (h : SameApart g g') : g'.typeStep = g.typeStep := by
  funext x
  have hx := h.map_find? (f := Object.withoutValue) (fun o => by cases o <;> rfl) x
  rw [typeStep, typeStep]
  cases hg : g.find? x with
  | none =>
    rw [hg] at hx
    rw [Option.map_eq_none_iff.1 hx]
  | some o =>
    rw [hg] at hx
    obtain ⟨o', hg', heq⟩ := Option.map_eq_some_iff.1 hx
    rw [hg']
    -- only variables can differ, and not in what they say about their type
    cases o <;> cases o' <;> simp_all [Object.withoutValue]

theorem SameApart.type?_eq (h : SameApart g g') : g'.type? = g.type? := by
  funext x
  rw [type?, type?, typeWithin_eq, typeWithin_eq, h.walkBound_eq, h.typeStep_eq]

/-- A variable that has a type of its own has that type. -/
theorem type?_of_type (hv : g.find? id = some (.var v)) (ht : v.type = some type) :
    g.type? id = some type := by
  refine type?_eq_some_iff.2 ⟨1, ?_⟩
  simp [typeWithin_succ, typeStep, hv, ht]

/-! ### Variables that can be declared -/

theorem checkVariable_eq_ok_iff : g.checkVariable id v = .ok (q, type) ↔
    v.qualifier = some q ∧ g.type? id = some type ∧
      (q = .const → ∃ literal, v.value.bind Value.literal = some literal) := by
  unfold checkVariable
  cases hq : v.qualifier with
  | none => simp
  | some q' =>
    cases ht : g.type? id with
    | none => simp
    | some type' =>
      dsimp only
      by_cases hc : q' = .const ∧ v.value.bind Value.literal = none
      · rw [if_pos hc]
        refine iff_of_false (by simp) ?_
        rintro ⟨hq, -, hliteral⟩
        obtain ⟨literal, hliteral⟩ := hliteral (Option.some.inj hq ▸ hc.1)
        rw [hc.2] at hliteral
        cases hliteral
      · rw [if_neg hc]
        simp only [Except.pure_eq, Except.ok.injEq, Prod.mk.injEq, Option.some.injEq]
        refine and_congr_right fun hq => (iff_self_and.2 fun _ hconst => ?_)
        exact Option.ne_none_iff_exists'.1 fun hnone => hc ⟨hq.trans hconst, hnone⟩

/-- **A variable is valid** if its qualifier and type are known and, if it is constant, its value has
a literal. -/
theorem validate_variable_iff (hv : g.find? id = some (.var v)) : g.validate id = .ok () ↔
    (∃ q, v.qualifier = some q) ∧ (∃ type, g.type? id = some type) ∧
      (v.qualifier = some .const → ∃ literal, v.value.bind Value.literal = some literal) := by
  have hvalidate : g.validate id = .ok () ↔ ∃ r, g.checkVariable id v = .ok r := by
    rw [validate, get_eq_ok_iff.2 hv, Except.ok_bind]
    dsimp only
    cases g.checkVariable id v <;> simp
  rw [hvalidate]
  constructor
  · rintro ⟨⟨q, type⟩, hr⟩
    obtain ⟨hq, ht, hliteral⟩ := checkVariable_eq_ok_iff.1 hr
    exact ⟨⟨q, hq⟩, ⟨type, ht⟩, fun hc => hliteral (Option.some.inj (hq.symm.trans hc))⟩
  · rintro ⟨⟨q, hq⟩, ⟨type, ht⟩, hliteral⟩
    exact ⟨(q, type), checkVariable_eq_ok_iff.2 ⟨hq, ht, fun hc => hliteral (hc ▸ hq)⟩⟩

/-- What is written for a variable shows the value of a constant and of nothing else. -/
theorem of_variableDefinition (h : g.variableDefinition names id v = .ok code) :
    ∃ q type name, v.qualifier = some q ∧ g.type? id = some type ∧ names[id]? = some name ∧
      ((q ≠ .const ∧ code = q.keyword ++ " " ++ type ++ " " ++ name ++ ";") ∨
        (q = .const ∧ ∃ literal, v.value.bind Value.literal = some literal ∧
          code = "const " ++ type ++ " " ++ name ++ " = " ++ literal ++ ";")) := by
  unfold variableDefinition at h
  obtain ⟨⟨q, type⟩, hcheck, h⟩ := Except.bind_eq_ok_iff.1 h
  obtain ⟨name, hname, h⟩ := Except.bind_eq_ok_iff.1 h
  obtain ⟨hq, ht, hconst⟩ := checkVariable_eq_ok_iff.1 hcheck
  refine ⟨q, type, name, hq, ht, nameIn_eq_ok_iff.1 hname, ?_⟩
  by_cases hc : q = .const
  · obtain ⟨literal, hliteral⟩ := hconst hc
    simp only [hliteral, if_pos hc] at h
    exact .inr ⟨hc, literal, hliteral, (Except.ok.inj h).symm⟩
  · refine .inl ⟨hc, ?_⟩
    simp only [if_neg hc] at h
    split at h <;> exact (Except.ok.inj h).symm

/-- Whether one zero takes the place of the other is a question of the values. -/
theorem flipsZero_iff {old value : Value} (hv : g.find? id = some (.var v))
    (hq : v.qualifier = some .const) (hold : v.value = some old) :
    g.FlipsZero id value ↔ old.OppositeZeros value := by
  refine ⟨?_, fun hzeros => ⟨v, old, hv, hq, hold, hzeros⟩⟩
  rintro ⟨v', old', hv', -, hold', hzeros⟩
  rw [hv] at hv'
  cases hv'
  exact Option.some.inj (hold.symm.trans hold') ▸ hzeros

theorem variableDefinition_of_definition? (hv : g.find? id = some (.var v))
    (h : g.definition? names id = .ok (some code)) : g.variableDefinition names id v = .ok code := by
  rw [definition?, get_eq_ok_iff.2 hv, Except.ok_bind] at h
  obtain ⟨code', hcode', heq⟩ := Except.map_eq_ok_iff.1 h
  exact Option.some.inj heq ▸ hcode'

end Graph

namespace Store

variable {s t : Store} {id : ObjectId} {v w : Variable} {value : Value}

/-- **What is left of an accepted value**: the variable has taken it, and everybody is told if the
variable says so. -/
theorem run_setValue {changed : Bool} (hv : s.graph.find? id = some (.var v))
    (hset : v.setValue value = .ok (w, changed)) : (setValue id value).run s = .ok ()
      { s with graph :=
          if changed then (s.graph.setObject id (.var w)).touch id
          else (s.graph.setObject id (.var w)).advance } := by
  rw [setValue, EStateM.run_bind, run_ask, Graph.getVariable_eq_ok_iff.2 hv]
  dsimp only
  rw [hset]
  rfl

/-- What answers to being given a value is a variable that accepts it. -/
theorem of_run_setValue (h : (setValue id value).run s = .ok () t) : ∃ v w changed,
    s.graph.find? id = some (.var v) ∧ v.setValue value = .ok (w, changed) := by
  obtain ⟨v, hv, hrest⟩ := of_run_ask_bind h
  cases hset : v.setValue value with
  | error e =>
    rw [hset] at hrest
    cases hrest
  | ok r => exact ⟨v, r.1, r.2, Graph.getVariable_eq_ok_iff.1 hv, hset⟩

/-- The variable that has taken a value is there. -/
theorem find?_of_run_setValue (h : (setValue id value).run s = .ok () t) : ∃ v w changed,
    s.graph.find? id = some (.var v) ∧ v.setValue value = .ok (w, changed) ∧
      t.graph.find? id = some (.var w) := by
  obtain ⟨v, w, changed, hv, hset⟩ := of_run_setValue h
  refine ⟨v, w, changed, hv, hset, ?_⟩
  rw [run_setValue hv hset] at h
  cases h
  have hself : (s.graph.setObject id (.var w)).find? id = some (.var w) :=
    Graph.find?_setObject_self hv _
  cases changed with
  | false => exact hself
  | true => exact Graph.find?_touch_of_not_chain id hself nofun

/-- **A variable is valid after it has accepted a value**, whether or not it was before, and a
declared variable keeps its qualifier and its type; except that a constant also takes a buffer that
was registered with its type, for which nothing can be written. -/
theorem accepted_value_validates (hv : s.graph.find? id = some (.var v))
    (h : (setValue id value).run s = .ok () t) :
    (t.graph.validate id = .ok () ↔ ¬ (v.qualifier = some .const ∧ ∃ b, value = .buffer b)) ∧
    (v.declared = true → ∃ w, t.graph.find? id = some (.var w) ∧ w.qualifier = v.qualifier ∧
      w.type = v.type) := by
  obtain ⟨v', w, changed, hv', hset, hw⟩ := find?_of_run_setValue h
  obtain rfl : v' = v := by
    rw [hv] at hv'
    cases hv'
    rfl
  obtain ⟨htype, hconst⟩ := Variable.type_of_setValue hset
  refine ⟨?_, fun hd => ⟨w, hw, Variable.declared_of_setValue hset hd⟩⟩
  rw [Graph.validate_variable_iff hw, hconst, Variable.value_of_setValue hset]
  simp only [Option.bind_some]
  rw [← Value.literal_eq_none_iff]
  constructor
  · rintro ⟨-, -, hliteral⟩ ⟨hc, hnone⟩
    obtain ⟨literal, hsome⟩ := hliteral hc
    rw [hnone] at hsome
    cases hsome
  · intro hexcept
    have htype' := Graph.type?_of_type hw htype
    refine ⟨Variable.exists_qualifier_of_setValue hset, ⟨_, htype'⟩, fun hc => ?_⟩
    exact Option.ne_none_iff_exists'.1 fun hnone => hexcept ⟨hc, hnone⟩

/-- A store with a constant. -/
def gammaStore : Store := (Operation.declare "const float gamma 2.2").perform empty

/-- The constant of that store. -/
def gamma : Variable where
  name := "gamma"
  declared := true
  qualifier := some .const
  type := some "float"
  value := some (.float (.ofDecimal false ⟨22, -1⟩))
  link := none
  state := 0

/-- The constant takes another number, and can still be declared. -/
theorem accepted_value_validates_gamma :
    let t := stateAfter (setValue ⟨1⟩ (.float (.ofDecimal false ⟨18, -1⟩))) gammaStore
    gammaStore.graph.find? ⟨1⟩ = some (.var gamma) ∧ t.graph.validate ⟨1⟩ = .ok () ∧
      ∃ w, t.graph.find? ⟨1⟩ = some (.var w) ∧ w.qualifier = some .const ∧ w.type = some "float" := by
  intro t
  have hv : gammaStore.graph.find? ⟨1⟩ = some (.var gamma) := by decide
  have hset : gamma.setValue (.float (.ofDecimal false ⟨18, -1⟩)) =
      .ok (gamma.store (.float (.ofDecimal false ⟨18, -1⟩)), true) := by decide
  have hrun := run_setValue hv hset
  obtain ⟨hvalid, hdeclared⟩ := accepted_value_validates hv hrun
  rw [← stateAfter_eq_of_ok hrun] at hvalid hdeclared
  refine ⟨hv, hvalid.2 ?_, hdeclared rfl⟩
  rintro ⟨-, b, hb⟩
  cases hb

/-- **A constant accepts a buffer** that was registered with its type, and can no longer be declared.
A declared uniform refuses the buffer, because it looks at the qualifier as well. -/
theorem constant_accepts_buffer :
    let buffer : Value := .buffer ⟨7, "float"⟩
    let t := stateAfter (setValue ⟨1⟩ buffer) gammaStore
    gammaStore.graph.find? ⟨1⟩ = some (.var gamma) ∧ gammaStore.graph.validate ⟨1⟩ = .ok () ∧
    failure? (setValue ⟨1⟩ buffer) gammaStore = none ∧
    t.graph.validate ⟨1⟩ = .error (.unassigned "gamma") ∧
    failure? (setValue ⟨1⟩ buffer) ((Operation.declare "uniform float gamma").perform empty) =
      some (.typeMismatch "gamma" "uniform float" "attribute float") := by
  decide +kernel

end Store

namespace Session

variable {σ : Session} {k : Nat} {id : ObjectId} {v w : Variable} {value : Value}

/-- **A value that reports no change keeps the definition**, unless it puts one zero in the place of
the other in a constant: then the definition is another text, and the revision stays what it was all
the same. -/
theorem unreported_value_keeps_definition (h : σ.Reachable)
    (hv : (σ.graphs k).find? id = some (.var v)) (hset : v.setValue value = .ok (w, false))
    {names : Names} {before after : String}
    (hbefore : (σ.graphs k).definition? names id = .ok (some before))
    (hafter : (((Action.edit k (.setValue id value)).perform σ).graphs k).definition? names id =
      .ok (some after)) :
    (((Action.edit k (.setValue id value)).perform σ).graphs k).revision id =
        (σ.graphs k).revision id ∧
      (after = before ↔ ¬ (σ.graphs k).FlipsZero id value) := by
  have hgraph : ((Action.edit k (.setValue id value)).perform σ).graphs k =
      (stateAfter (Store.setValue id value) (σ.store k)).graph := graphs_setStore
  rw [hgraph] at hafter ⊢
  have hquiet : ¬ (σ.graphs k).ReportsChange id value := by
    rintro ⟨v', w', hv', hset'⟩
    rw [hv] at hv'
    cases hv'
    rw [hset] at hset'
    cases hset'
  have hapart := Store.sameApart_setValue (s := σ.store k) hquiet
  have hrun := Store.run_setValue (s := σ.store k) hv hset
  have hw : (stateAfter (Store.setValue id value) (σ.store k)).graph.find? id = some (.var w) := by
    rw [stateAfter_eq_of_ok hrun]
    exact Graph.find?_setObject_self hv _
  refine ⟨hapart.revision_eq id, ?_⟩
  -- both texts have the same words, and a literal besides if the variable is constant
  have hbefore := Graph.of_variableDefinition (Graph.variableDefinition_of_definition? hv hbefore)
  have hafter := Graph.of_variableDefinition (Graph.variableDefinition_of_definition? hw hafter)
  obtain ⟨q, type, name, hq, ht, hname, hbefore⟩ := hbefore
  obtain ⟨q', type', name', hq', ht', hname', hafter⟩ := hafter
  obtain ⟨rfl, hconst⟩ :=
    Variable.eq_store_of_setValue ((h.lawful.store k).wellFormed id _ hv) hset
  obtain rfl : q' = q := Option.some.inj (hq'.symm.trans hq)
  obtain rfl : type' = type := by
    rw [hapart.type?_eq] at ht'
    exact Option.some.inj (ht'.symm.trans ht)
  obtain rfl : name' = name := Option.some.inj (hname'.symm.trans hname)
  obtain ⟨hnot, rfl⟩ | ⟨rfl, literal, hliteral, rfl⟩ := hbefore
  · obtain ⟨-, rfl⟩ | ⟨hc, -⟩ := hafter
    · refine iff_of_true rfl ?_
      rintro ⟨v', -, hv', hc, -⟩
      rw [hv] at hv'
      cases hv'
      exact hnot (Option.some.inj (hq.symm.trans hc))
    · exact absurd hc hnot
  · obtain ⟨hnot, -⟩ | ⟨-, literal', hliteral', rfl⟩ := hafter
    · exact absurd rfl hnot
    · obtain ⟨old, hold, hsame⟩ := hconst hq
      have hflips : (σ.graphs k).FlipsZero id value ↔ old.OppositeZeros value :=
        Graph.flipsZero_iff hv hq hold
      rw [String.append_left_inj, String.append_right_inj, hflips]
      rw [hold, Option.bind_some] at hliteral
      have hliteral' : value.literal = some literal' := hliteral'
      constructor
      · rintro rfl hzeros
        exact Value.literal_ne_of_oppositeZeros hzeros (hliteral.trans hliteral'.symm)
      · intro hzeros
        obtain rfl := hsame.resolve_right hzeros
        exact Option.some.inj (hliteral'.symm.trans hliteral)

/-- A session of a constant zero. -/
def zeroSession : Session :=
  empty.edited 0 [.declare "const float z 0.0"]

/-- The constant of that session. -/
def zeroConstant : Variable where
  name := "z"
  declared := true
  qualifier := some .const
  type := some "float"
  value := some (.float (.ofRank false 0))
  link := none
  state := 0

/-- The name of the constant. -/
def zeroNames : Names := (∅ : Names).insert ⟨1⟩ "z"

theorem reachable_zeroSession : zeroSession.Reachable := by
  have hany : ReachableBy (fun _ _ => True) zeroSession :=
    ReachableBy.empty.edited fun _ _ _ => trivial
  exact hany.reachable

/-- A constant keeps its definition when it is given the number that it has. -/
theorem unreported_value_keeps_definition_zero :
    let σ := (Action.edit 0 (.setValue ⟨1⟩ (.float (.ofRank false 0)))).perform zeroSession
    zeroSession.Reachable ∧ (zeroSession.graphs 0).find? ⟨1⟩ = some (.var zeroConstant) ∧
    (zeroSession.graphs 0).definition? zeroNames ⟨1⟩ = .ok (some "const float z = 0.0;") ∧
    (σ.graphs 0).definition? zeroNames ⟨1⟩ = .ok (some "const float z = 0.0;") ∧
    (σ.graphs 0).revision ⟨1⟩ = (zeroSession.graphs 0).revision ⟨1⟩ ∧
    ¬ (zeroSession.graphs 0).FlipsZero ⟨1⟩ (.float (.ofRank false 0)) := by
  intro σ
  have hv : (zeroSession.graphs 0).find? ⟨1⟩ = some (.var zeroConstant) := by decide
  have hset : zeroConstant.setValue (.float (.ofRank false 0)) =
      .ok (zeroConstant.store (.float (.ofRank false 0)), false) := by decide
  have hbefore : (zeroSession.graphs 0).definition? zeroNames ⟨1⟩ =
      .ok (some "const float z = 0.0;") := by decide
  have hafter : (σ.graphs 0).definition? zeroNames ⟨1⟩ = .ok (some "const float z = 0.0;") := by
    decide
  obtain ⟨hrevision, hsame⟩ :=
    unreported_value_keeps_definition reachable_zeroSession hv hset hbefore hafter
  exact ⟨reachable_zeroSession, hv, hbefore, hafter, hrevision, hsame.1 rfl⟩

/-- **The other zero changes the definition unreported**: equal numbers are written differently. -/
theorem negative_zero_unreported :
    let σ := (Action.edit 0 (.setValue ⟨1⟩ (.float (.ofRank true 0)))).perform zeroSession
    zeroSession.Reachable ∧ (zeroSession.graphs 0).find? ⟨1⟩ = some (.var zeroConstant) ∧
    zeroConstant.setValue (.float (.ofRank true 0)) =
      .ok (zeroConstant.store (.float (.ofRank true 0)), false) ∧
    (zeroSession.graphs 0).definition? zeroNames ⟨1⟩ = .ok (some "const float z = 0.0;") ∧
    (σ.graphs 0).definition? zeroNames ⟨1⟩ = .ok (some "const float z = -0.0;") ∧
    (σ.graphs 0).revision ⟨1⟩ = (zeroSession.graphs 0).revision ⟨1⟩ :=
  ⟨reachable_zeroSession, by decide, by decide, by decide, by decide,
    by decide⟩

end Session

end ShaderLink
