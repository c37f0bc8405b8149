import ShaderLink.Proofs.Linker.Revision
import ShaderLink.Proofs.Store.Roles
import ShaderLink.Proofs.Store.Values

/-!
# Varyings that take their type through a link

A varying that has no type of its own has the type of what it is linked to, and that may have it
through other links, or from what a call calls. Linking it gives it that type: the walk that finds
the type does not come back to the varying, and nothing on the way is retyped by the link
(`Store.type?_of_run_link`). The link stays, because a varying takes no value and is changed by no
other edit (`Store.Move.find?_varying`).

The type may change later, when a variable that the walk ends at takes a value, or a chain gets other
members. Then the revision of the varying is raised: where its revision stays, so do those of all
objects that the walk meets, which is the same walk then (`Graph.Lasting.type?_eq_of_back`). What is
not there cannot come to be there, since identifiers are given once; only adding an object brings one
back, and actions that add are left out (`Session.Spares`).

A type of its own comes before the link (`Session.declared_varying_keeps_type`).
-/

namespace ShaderLink

open Relation

namespace Graph

variable {g g' : Graph} {x y e : ObjectId} {v : Variable} {n : Nat} {roles : ObjectId → Role}

/-! ### Types along links -/

/-- A variable without a type of its own has the type of what it is linked to. -/
theorem type?_of_link (hv : g.find? x = some (.var v)) (ht : v.type = none)
    (hlink : v.link = some e) : g.type? x = g.type? e := by
  have hstep : g.typeStep x = some (.inr e) := by simp [typeStep, hv, ht, hlink]
  ext t
  simp only [type?_eq_some_iff]
  constructor
  · rintro ⟨n, hn⟩
    cases n with
    | zero => cases hn
    | succ n =>
      rw [typeWithin_succ, hstep] at hn
      exact ⟨n, hn⟩
  · rintro ⟨n, hn⟩
    refine ⟨n + 1, ?_⟩
    rw [typeWithin_succ, hstep]
    exact hn

/-- The walk goes on to a callee, or along a link. -/
theorem of_typeStep_inr (h : g.typeStep x = some (.inr y)) :
    (∃ c, g.find? x = some (.call c) ∧ y = c.callee) ∨ g.LinkedTo x y := by
  unfold typeStep at h
  split at h
  · cases h
  · cases h
  · cases h
  · cases h
  · next c hc => exact .inl ⟨c, hc, (Sum.inr.inj (Option.some.inj h)).symm⟩
  · next v hv =>
    split at h
    · cases h
    · next link _ hlink => exact .inr ⟨v, hv, Sum.inr.inj (Option.some.inj h) ▸ hlink⟩
    · cases h

/-- **What lasts keeps its type**, where nothing comes back that an object carries a change of. -/
theorem Lasting.type?_eq_of_back {p : ObjectId → Prop} (h : Lasting p g g')
    (hback : ∀ y o z, p y → g.find? y = some o → o.Carries z → z ∈ g'.ids → z ∈ g.ids) (hx : p x) :
    g'.type? x = g.type? x := by
  -- the walk goes on from what lasts to what lasts, as long as it goes on in one of the graphs
  have hnext : ∀ y z, p y → g.typeStep y = some (.inr z) → z ∈ g.ids ∨ z ∈ g'.ids → p z :=
    fun y z hy hstep hz => by
      obtain ⟨o, ho, hc⟩ := carries_of_typeStep hstep
      exact h.carried hy ho hc (hz.elim id (hback y o z hy ho hc))
  ext t
  simp only [type?_eq_some_iff]
  constructor
  · rintro ⟨n, hn⟩
    refine ⟨n, typeWithin_of_agree (p := p) (fun y hy _ => (h.typeStep_eq hy).symm)
      (fun y z hy hstep hz => ?_) hx hn⟩
    rw [h.typeStep_eq hy] at hstep
    exact hnext y z hy hstep (.inr (mem_ids_of_typeStep hz))
  · rintro ⟨n, hn⟩
    exact ⟨n, typeWithin_of_agree (p := p) (fun y hy _ => h.typeStep_eq hy)
      (fun y z hy hstep hz => hnext y z hy hstep (.inl (mem_ids_of_typeStep hz))) hx hn⟩

/-- A type that is known stays the same when a variable is changed that links do not lead to. -/
theorem type?_of_replaced {t : String} (hroles : g.InRoles roles n)
    (hv : g.find? x = some (.var v)) (hother : ∀ y, x ≠ y → g'.find? y = g.find? y)
    (hne : x ≠ e) (hlinks : ¬ TransGen g.LinkedTo e x) (ht : g.type? e = some t) :
    g'.type? e = some t := by
  obtain ⟨n, hn⟩ := type?_eq_some_iff.1 ht
  refine type?_eq_some_iff.2 ⟨n, typeWithin_of_agree
    (p := fun y => x ≠ y ∧ ¬ TransGen g.LinkedTo y x) (fun y hy _ => ?_)
    (fun y z hy hstep _ => ?_) ⟨hne, hlinks⟩ hn⟩
  · rw [typeStep, typeStep, hother y hy.1]
  · obtain ⟨c, hc, rfl⟩ | hlink := of_typeStep_inr hstep
    · -- what is called is no variable, so it neither is the object nor is linked to anything
      have hvariable : ∀ w, g.find? c.callee ≠ some (.var w) := fun w hw =>
        hroles.not_isCallable hw rfl ((hroles.object y _ hc).called c.callee rfl)
      refine ⟨fun hx => hvariable v (hx ▸ hv), fun hleads => ?_⟩
      obtain ⟨_, ⟨w, hw, -⟩, -⟩ := TransGen.head'_iff.1 hleads
      exact hvariable w hw
    · exact ⟨fun hx => hy.2 (hx ▸ .single hlink), fun hleads => hy.2 (.head hlink hleads)⟩

end Graph

/-! ### Zeros -/

theorem Value.same_of_oppositeZeros {a b : Value} (h : a.OppositeZeros b) : a.same b = true := by
  unfold OppositeZeros at h
  split at h
  · obtain ⟨hr, hs, -⟩ := h
    simp [same, Single.same, Fin.ext (hr.trans hs.symm), hs]
  · exact h.elim

namespace Store

variable {s t : Store} {x e : ObjectId} {v : Variable} {value : Value}
  {roles : ObjectId → Role} {relinked removed : ObjectId → Prop}

/-- A zero that takes the place of the other is no change that is reported. -/
theorem not_reportsChange_of_flipsZero (h : s.graph.FlipsZero x value) :
    ¬ s.graph.ReportsChange x value := by
  obtain ⟨v, old, hv, hq, hold, hzeros⟩ := h
  rintro ⟨v', w, hv', hset⟩
  rw [hv] at hv'
  cases hv'
  obtain ⟨-, -, -, hchanged⟩ | ⟨hconst, -⟩ := Variable.setValue_cases hset
  · simp [hold, Value.same_of_oppositeZeros hzeros] at hchanged
  · exact hconst hq

/-- An edit that puts one zero in the place of the other changes nothing but that value. -/
theorem sameApart_of_flipsZero {op : Operation} (h : op.FlipsZero s) :
    s.graph.SameApart (op.perform s).graph := by
  cases op with
  | setValue id value => exact sameApart_setValue (not_reportsChange_of_flipsZero h)
  | assign f placeholder value =>
    obtain ⟨snippet, bound, hf, hbound, hzero⟩ := h
    have hrefused : s.graph.SameApart s.graph := .refl _
    refine stateAfter_ask_bind (p := fun t => s.graph.SameApart t.graph) hrefused fun _ hsnippet => ?_
    obtain rfl := Except.ok.inj ((Graph.getFunction_eq_ok_iff.2 hf).symm.trans hsnippet)
    dsimp only
    split
    · rw [hbound]
      refine stateAfter_ask_bind (p := fun t => s.graph.SameApart t.graph) hrefused fun o ho => ?_
      obtain ⟨v, _, hv, -⟩ := id hzero
      rw [Graph.get_eq_ok_iff, hv] at ho
      obtain rfl := Option.some.inj ho
      show s.graph.SameApart (stateAfter (setValue bound value >>= fun _ => pure bound) s).graph
      rw [stateAfter_bind_pure]
      exact sameApart_setValue (not_reportsChange_of_flipsZero hzero)
    · exact hrefused
  | _ => exact h.elim

/-! ### Links -/

/-- What is left of a link: the variable is linked, and the link does not lead back to it. -/
theorem of_run_link (h : (link x e).run s = .ok () t) : ∃ v, s.graph.find? x = some (.var v) ∧
    e ∈ s.graph.ids ∧ x ≠ e ∧ ¬ TransGen s.graph.LinkedTo e x ∧ t = { s with graph :=
      (s.graph.revise x (.var { v with link := some e }) v.link.toList [e]).touch x } := by
  obtain ⟨o, ho, h⟩ := of_run_ask_bind h
  change (if _ then _ else _ : Edit Unit).run s = .ok () t at h
  split at h
  · cases h
  · next hacyclic =>
    rw [Bool.or_eq_true, decide_eq_true_eq, not_or, Graph.linksTo_iff] at hacyclic
    obtain ⟨v, hv, h⟩ := of_run_ask_bind h
    cases h
    exact ⟨v, Graph.getVariable_eq_ok_iff.1 hv,
      Graph.mem_ids_of_find? (Graph.get_eq_ok_iff.1 ho), hacyclic.1, hacyclic.2, rfl⟩

/-- **A variable without a type of its own takes the type of what it is linked to**, and that keeps
its type. -/
theorem type?_of_run_link {type : String} (h : (link x e).run s = .ok () t)
    (hroles : s.InRoles roles) (hv : s.graph.find? x = some (.var v)) (htype : v.type = none)
    (ht : s.graph.type? e = some type) :
    t.graph.find? x = some (.var { v with link := some e }) ∧ t.graph.type? e = some type ∧
      t.graph.type? x = some type := by
  obtain ⟨v', hv', hmem, hne, hleads, rfl⟩ := of_run_link h
  obtain rfl : v' = v := by
    rw [hv] at hv'
    cases hv'
    rfl
  -- the touch of a variable leaves all objects as they are, so the link is all that changes
  have hfind := (Graph.InRoles.link hroles hv hmem v'.link.toList).find?_touch
    (Graph.InRoles.not_isCallable hroles hv rfl)
  have hself := (hfind x).trans (Graph.find?_revise_self hv)
  have hother := fun y (hy : x ≠ y) => (hfind y).trans (Graph.find?_revise_of_ne hy)
  have he := Graph.type?_of_replaced hroles hv hother hne hleads ht
  exact ⟨hself, he, (Graph.type?_of_link hself htype rfl).trans he⟩

/-! ### Varyings -/

/-- A mild move leaves variables as they are. -/
theorem find?_var_of_mild (h : ReflTransGen Mild s t) (hv : s.graph.find? x = some (.var v)) :
    t.graph.find? x = some (.var v) := by
  induction h with
  | refl => exact hv
  | tail _ hstep ih =>
    cases hstep with
    | @function id f f' kept removed added hf hsig hold hnow =>
      have hx := Graph.ne_of_find?_ne hf ih nofun
      exact Graph.find?_touch_of_not_chain id ((Graph.find?_revise_of_ne hx).trans ih) nofun
    | unlinked habsent hlink => exact Graph.find?_insert_of_absent habsent ih

/-- **A varying stays as it is** unless it is linked or removed: it takes no value. -/
theorem Move.find?_varying (h : Move relinked removed s t) (hv : s.graph.find? x = some (.var v))
    (hq : v.qualifier = some .varying) (hrelinked : ¬ relinked x) (hremoved : ¬ removed x) :
    t.graph.find? x = some (.var v) := by
  cases h with
  | mild h => exact find?_var_of_mild h hv
  | refuse => exact hv
  | make habsent ho => exact Graph.find?_insert_of_absent habsent hv
  | call habsent hparts hcheck => exact Graph.find?_insert_of_absent habsent hv
  | chain habsent hmembers htypes => exact Graph.find?_insert_of_absent habsent hv
  | @value id v' w value changed hv' hset =>
    have hx : id ≠ x := by
      rintro rfl
      rw [hv] at hv'
      cases hv'
      rw [Variable.setValue, hq] at hset
      cases hset
    have hw : (s.graph.setObject id (.var w)).find? x = some (.var v) :=
      (Graph.find?_setObject_of_ne hx).trans hv
    cases changed with
    | true => exact Graph.find?_touch_of_not_chain id hw nofun
    | false => exact hw
  | @link id other v' hid hv' hother =>
    have hx : id ≠ x := fun hx => hrelinked (hx ▸ hid)
    exact Graph.find?_touch_of_not_chain id ((Graph.find?_revise_of_ne hx).trans hv) nofun
  | @members id c members kept gone came hc hold hnow hmembers =>
    have hx := Graph.ne_of_find?_ne hc hv nofun
    refine Graph.find?_touch_of_not_chain id ?_ nofun
    rw [Graph.refresh_of_chain (Graph.find?_revise_self hc), Graph.find?_setObject_of_ne hx]
    exact (Graph.find?_revise_of_ne hx).trans hv
  | @remove id o hid ho =>
    have hx : id ≠ x := fun hx => hremoved (hx ▸ hid)
    exact Graph.find?_touch_of_not_chain id ((Graph.find?_discard_of_ne hx).trans hv) nofun

end Store

/-! ### Revisions and types -/

/-- **A revision that shows changes of the type**: it never falls, and is raised where the type is
another. -/
def Graph.TypeStamped (x : ObjectId) (g g' : Graph) : Prop :=
  ∃ r r', g.revision x = .ok r ∧ g'.revision x = .ok r' ∧ r ≤ r' ∧
    (g'.type? x ≠ g.type? x → r < r')

theorem Graph.typeStamped_refl {g : Graph} {x : ObjectId} (hx : x ∈ g.ids) :
    TypeStamped x g g := by
  obtain ⟨n, hn⟩ := exists_node hx
  have hr : g.revision x = .ok n.revision := revision_eq_ok_iff.2 ⟨n, hn, rfl⟩
  exact ⟨n.revision, n.revision, hr, hr, Nat.le_refl _, fun hne => absurd rfl hne⟩

theorem Graph.TypeStamped.trans {g g' g'' : Graph} {x : ObjectId} (h : TypeStamped x g g')
    (h' : TypeStamped x g' g'') : TypeStamped x g g'' := by
  obtain ⟨r, r', hr, hr', hle, hlt⟩ := h
  obtain ⟨r₁, r'', hr₁, hr'', hle', hlt'⟩ := h'
  obtain rfl : r' = r₁ := Except.ok.inj (hr'.symm.trans hr₁)
  refine ⟨r, r'', hr, hr'', Nat.le_trans hle hle', fun hne => ?_⟩
  -- the type changed in one of the two
  by_cases htype : g'.type? x = g.type? x
  · exact Nat.lt_of_le_of_lt hle (hlt' fun hsame => hne (hsame.trans htype))
  · exact Nat.lt_of_lt_of_le (hlt htype) hle'

namespace Session

variable {σ τ : Session} {k : Nat} {x e : ObjectId} {v : Variable} {a : Action}

/-- **An action raises the revision of what it gives another type**, if it adds nothing. -/
theorem Action.typeStamped (h : σ.Reachable) (ha : a.Possible σ) (hadd : ∀ y, ¬ a.Adds k y)
    (hx : x ∈ (σ.graphs k).ids) (hx' : x ∈ ((a.perform σ).graphs k).ids) :
    Graph.TypeStamped x (σ.graphs k) ((a.perform σ).graphs k) := by
  obtain ⟨n, hn⟩ := Graph.exists_node hx
  obtain ⟨n', hn'⟩ := Graph.exists_node hx'
  have hr := Graph.revision_eq_ok_iff.2 ⟨n, hn, rfl⟩
  have hr' := Graph.revision_eq_ok_iff.2 ⟨n', hn', rfl⟩
  by_cases hflips : a.FlipsZero σ k
  · -- a zero for the other changes no type
    obtain ⟨op, rfl, hflips⟩ := hflips
    have hapart := Store.sameApart_of_flipsZero hflips
    have hgraph : ((Action.edit k op).perform σ).graphs k = (op.perform (σ.store k)).graph :=
      graphs_setStore
    rw [← hgraph] at hapart
    have hrevision : n'.revision = n.revision :=
      Except.ok.inj (hr'.symm.trans ((hapart.revision_eq x).trans hr))
    exact ⟨_, _, hr, hr', Nat.le_of_eq hrevision.symm, fun hne =>
      absurd (congrFun hapart.type?_eq x) hne⟩
  · have hretains : ∀ y, Retains k y σ a := fun _ => ⟨hflips, fun y hy => absurd hy (hadd y)⟩
    have hchange := (hretains x).change h ha
    obtain ⟨roles, hroles⟩ := h.exists_inRoles
    refine ⟨_, _, hr, hr', hchange.revision_le hn hn', fun hne => ?_⟩
    refine Nat.lt_of_le_of_ne (hchange.revision_le hn hn') fun hrevision => hne ?_
    refine hchange.lasting.type?_eq_of_back (fun y o z _ ho hc hz => ?_) ⟨n, n', hn, hn', hrevision⟩
    exact (hretains z).mem_ids h ha (((hroles.graph k).object y o ho).carried z hc) hz

/-- The rule that spares a variable of a graph: nothing is added to the graph, and the variable is
not removed and not linked to anything. -/
def Spares (k : Nat) (x : ObjectId) (σ : Session) (a : Action) : Prop :=
  (∀ y, ¬ a.Adds k y) ∧ (∀ e, a.LinksTo k x e → a.error? σ ≠ none) ∧ ¬ a.Removes k x

/-- A link that fails changes no graph. -/
theorem Action.LinksTo.graphs_of_error (hlinks : a.LinksTo k x e) (h : σ.Lawful)
    (herror : a.error? σ ≠ none) : (a.perform σ).graphs k = σ.graphs k := by
  obtain ⟨error, herror⟩ := Option.ne_none_iff_exists'.1 herror
  cases hlinks with
  | edit =>
    have hmembers : ¬ (Operation.link x e).EditsMembers := nofun
    exact graphs_setStore.trans (Operation.graph_perform_of_error (h.store k) hmembers herror)
  | assignVarying m =>
    obtain ⟨s, hs⟩ := exists_run_of_failure? herror
    rw [perform_assignVarying, stateAfter_eq_of_error hs]
    exact graphs_setStore.trans (m.allOrNothing_assignVarying (σ.store k) x e error s hs)

/-- A varying that is spared stays as it is. -/
theorem Spares.find?_varying (hspares : Spares k x σ a) (h : σ.Lawful)
    (hv : (σ.graphs k).find? x = some (.var v)) (hq : v.qualifier = some .varying) :
    ((a.perform σ).graphs k).find? x = some (.var v) := by
  by_cases hlinks : a.Links k x
  · obtain ⟨e, hlinks⟩ := hlinks
    rwa [hlinks.graphs_of_error h (hspares.2.1 e hlinks)]
  · obtain hsame | hmove := Action.move h hspares.1
    · rwa [hsame]
    · exact hmove.find?_varying hv hq hlinks hspares.2.2

/-- **A varying that is spared** is what it was all the time, and its revision shows all changes of
its type. -/
theorem HistoryBy.varying (hτ : HistoryBy (Spares k x) σ τ) (h : σ.Reachable)
    (hv : (σ.graphs k).find? x = some (.var v)) (hq : v.qualifier = some .varying) :
    (τ.graphs k).find? x = some (.var v) ∧ Graph.TypeStamped x (σ.graphs k) (τ.graphs k) := by
  induction hτ with
  | refl => exact ⟨hv, Graph.typeStamped_refl (Graph.mem_ids_of_find? hv)⟩
  | act hτ a ha hspares ih =>
    obtain ⟨hvτ, hstamped⟩ := ih
    have hreachable := hτ.reachable h
    have hv' := hspares.find?_varying hreachable.lawful hvτ hq
    exact ⟨hv', hstamped.trans (Action.typeStamped hreachable ha hspares.1
      (Graph.mem_ids_of_find? hvτ) (Graph.mem_ids_of_find? hv'))⟩

/-- What links a variable and does not fail runs a link. -/
theorem Action.LinksTo.run_link (hlinks : a.LinksTo k x e) (hanswers : a.error? σ = none) :
    (Store.link x e).run (σ.store k) = .ok () ((a.perform σ).store k) := by
  cases hlinks with
  | edit =>
    obtain ⟨_, t, ht⟩ := exists_run_of_failure?_eq_none hanswers
    rw [ht, Action.perform, store_setStore]
    exact congrArg _ (stateAfter_eq_of_ok ht).symm
  | assignVarying m =>
    obtain ⟨m', t, ht⟩ := exists_run_of_failure?_eq_none hanswers
    have hstore : ((Action.assignVarying k m x e).perform σ).store k = t := by
      rw [perform_assignVarying, stateAfter_eq_of_ok ht]
      exact store_setStore
    obtain ⟨v, -, hrest⟩ := Store.of_run_ask_bind ht
    dsimp only at hrest
    split at hrest
    · obtain ⟨_, u, hlink, hreturn⟩ := run_bind_eq_ok_iff.1 hrest
      cases hreturn
      rw [hstore]
      exact hlink
    · cases hrest

/-- **A link gives a varying the type of what it is linked to**, if it has none of its own: after the
varying is linked to an object of a known type, or assigned it at the end of a main code, both have
that type. They have the same type from then on, whatever is done that spares the varying; and
between any two points, each change of it has raised the revision of the varying. -/
theorem linked_varying_follows {t : String} (h : σ.Reachable) (ha : a.Possible σ)
    (hlinks : a.LinksTo k x e) (hanswers : a.error? σ = none)
    (hv : (σ.graphs k).find? x = some (.var v)) (hq : v.qualifier = some .varying)
    (htype : v.type = none) (ht : (σ.graphs k).type? e = some t) :
    ((a.perform σ).graphs k).type? x = some t ∧ ((a.perform σ).graphs k).type? e = some t ∧
    ∀ τ, HistoryBy (Spares k x) (a.perform σ) τ →
      (τ.graphs k).type? x = (τ.graphs k).type? e ∧
      ∀ τ', HistoryBy (Spares k x) τ τ' → Graph.TypeStamped x (τ.graphs k) (τ'.graphs k) := by
  obtain ⟨roles, hroles⟩ := h.exists_inRoles
  obtain ⟨hlinked, he, hx⟩ := Store.type?_of_run_link (hlinks.run_link hanswers) (hroles.graph k) hv
    htype ht
  refine ⟨hx, he, fun τ hτ => ?_⟩
  obtain ⟨hτv, -⟩ := hτ.varying (.act h a ha) hlinked hq
  exact ⟨Graph.type?_of_link hτv htype rfl, fun τ' hτ' =>
    (hτ'.varying (hτ.reachable (.act h a ha)) hτv hq).2⟩

/-- A varying that is linked to a call of a chain, and another one without a type. -/
def calledSession : Session :=
  empty.edited 0 [.function "float $f() \x7b return 1.0; \x7d",
    .function "vec3 $g(float x) \x7b return vec3(x); \x7d", .chain "c" true [⟨1⟩], .call ⟨3⟩ [],
    .varying "w" none, .link ⟨5⟩ ⟨4⟩, .varying "v" none]

/-- That varying is linked to the first. -/
def linkCalled : Action := .edit 0 (.link ⟨6⟩ ⟨5⟩)

/-- The chain gets another last member. -/
def appendMember : Action := .edit 0 (.append ⟨3⟩ ⟨2⟩)

/-- The varying has what the chain returns for its type, and is revised when that changes. -/
theorem linked_varying_follows_called :
    let σ := linkCalled.perform calledSession
    let τ := appendMember.perform σ
    calledSession.Reachable ∧ linkCalled.error? calledSession = none ∧
    (calledSession.graphs 0).find? ⟨6⟩ = some (.var (.varying "v" none)) ∧
    (calledSession.graphs 0).type? ⟨5⟩ = some "float" ∧
    (σ.graphs 0).type? ⟨6⟩ = some "float" ∧ HistoryBy (Spares 0 ⟨6⟩) σ τ ∧
    (τ.graphs 0).type? ⟨5⟩ = some "vec3" ∧ (τ.graphs 0).type? ⟨6⟩ = some "vec3" ∧
    ∃ r r', (σ.graphs 0).revision ⟨6⟩ = .ok r ∧ (τ.graphs 0).revision ⟨6⟩ = .ok r' ∧ r < r' := by
  intro σ τ
  have hany : ReachableBy (fun _ _ => True) calledSession :=
    ReachableBy.empty.edited fun _ _ _ => trivial
  obtain ⟨hanswers, hv, ht, hchanged⟩ : linkCalled.error? calledSession = none ∧
      (calledSession.graphs 0).find? ⟨6⟩ = some (.var (.varying "v" none)) ∧
      (calledSession.graphs 0).type? ⟨5⟩ = some "float" ∧
      (τ.graphs 0).type? ⟨5⟩ = some "vec3" := by decide +kernel
  have hspares : Spares 0 ⟨6⟩ σ appendMember := by
    refine ⟨fun _ => Action.not_adds_edit, nofun, ?_⟩
    rintro ⟨op, hop, hremoves⟩
    cases hop
    cases hremoves
  have hτ : HistoryBy (Spares 0 ⟨6⟩) σ τ := .act .refl appendMember trivial hspares
  obtain ⟨hlinked, -, hfollows⟩ :=
    linked_varying_follows (a := linkCalled) hany.reachable trivial .edit hanswers hv rfl rfl ht
  obtain ⟨htype, -⟩ := hfollows τ hτ
  obtain ⟨r, r', hr, hr', -, hraised⟩ := (hfollows σ .refl).2 τ hτ
  refine ⟨hany.reachable, hanswers, hv, ht, hlinked, hτ, hchanged, htype.trans hchanged, r, r', hr,
    hr', hraised ?_⟩
  rw [htype, hchanged, hlinked]
  decide

/-- A varying that was declared with a type, and a uniform of another. -/
def declaredSession : Session :=
  empty.edited 0 [.declare "varying vec4 v_color", .declare "uniform float level"]

/-- **A varying that was declared keeps its type** when it is linked to something of another one. -/
theorem declared_varying_keeps_type :
    let link : Action := .edit 0 (.link ⟨1⟩ ⟨2⟩)
    declaredSession.Reachable ∧ link.error? declaredSession = none ∧
    (∃ v, (declaredSession.graphs 0).find? ⟨1⟩ = some (.var v) ∧ v.qualifier = some .varying) ∧
    (declaredSession.graphs 0).type? ⟨2⟩ = some "float" ∧
    ((link.perform declaredSession).graphs 0).type? ⟨2⟩ = some "float" ∧
    ((link.perform declaredSession).graphs 0).type? ⟨1⟩ = some "vec4" := by
  have hany : ReachableBy (fun _ _ => True) declaredSession :=
    ReachableBy.empty.edited fun _ _ _ => trivial
  obtain ⟨hanswers, hqualifier, ht, hother, htype⟩ :
      (Action.edit 0 (.link ⟨1⟩ ⟨2⟩)).error? declaredSession = none ∧
      ((declaredSession.graphs 0).getVariable ⟨1⟩).toOption.bind Variable.qualifier =
        some .varying ∧
      (declaredSession.graphs 0).type? ⟨2⟩ = some "float" ∧
      (((Action.edit 0 (.link ⟨1⟩ ⟨2⟩)).perform declaredSession).graphs 0).type? ⟨2⟩ =
        some "float" ∧
      (((Action.edit 0 (.link ⟨1⟩ ⟨2⟩)).perform declaredSession).graphs 0).type? ⟨1⟩ =
        some "vec4" := by decide +kernel
  obtain ⟨v, hv, hq⟩ := Option.bind_eq_some_iff.1 hqualifier
  exact ⟨hany.reachable, hanswers,
    ⟨v, Graph.getVariable_eq_ok_iff.1 (Except.toOption_eq_some_iff.1 hv), hq⟩, ht, hother, htype⟩

end Session

end ShaderLink
