import ShaderLink.Proofs.Definition.Composition
import ShaderLink.Proofs.Store.ChainFailure
import ShaderLink.Proofs.Store.Moves

/-!
# What stale chains declare

A chain is marked stale when its types cannot be derived, and keeps the signature that it had. It is
not derived again when a member comes back, since whatever is added tells nobody. The chain may then
be checked, because its types can be derived by now; but what is written for it is the signature that
it still has.

Nothing but deriving its types changes the signature of a chain, and then the chain is not stale
(`Graph.Rederives`). A chain that is stale after an action therefore was there before, with the same
signature (`Session.Action.stale_source`), and has the one that it had when it was not stale for the
last time (`Session.Reachable.exists_last_fresh`). So the code of a stale chain declares the types
that its members have just if they are those that it had then
(`Session.stale_chain_declares`).
-/

namespace ShaderLink

open Relation StraightLine

namespace Graph

/-- Whether the types of a chain with some members can be derived. -/
def Derivable (g : Graph) (members : List ObjectId) : Prop :=
  ∃ types, g.deriveTypes members = .ok types

variable {g g' g'' : Graph} {id x y : ObjectId} {c c' : Chain} {members : List ObjectId}

/-! ### Deriving types again -/

/-- Types can be derived as long as the first and the last member can be called. -/
theorem Derivable.congr (hcallable : ∀ x, g.Callable x → g'.Callable x) (h : g.Derivable members) :
    g'.Derivable members := by
  obtain ⟨types, htypes⟩ := h
  unfold Derivable
  cases h' : g'.deriveTypes members with
  | ok types' => exact ⟨types', rfl⟩
  | error e =>
    -- one of the two can no longer be called
    exfalso
    obtain ⟨first, last, hfirst, hlast, he⟩ := deriveTypes_eq_error_iff.1 h'
    unfold deriveTypes at htypes
    rw [hfirst, hlast] at htypes
    obtain ⟨s, hs, htypes⟩ := Except.bind_eq_ok_iff.1 htypes
    obtain ⟨t, ht, -⟩ := Except.bind_eq_ok_iff.1 htypes
    obtain ⟨s', hs'⟩ := hcallable first ⟨s, hs⟩
    obtain ⟨t', ht'⟩ := hcallable last ⟨t, ht⟩
    obtain he | ⟨-, -, he⟩ := he
    · rw [hs'] at he
      cases he
    · rw [ht'] at he
      cases he

/-- **Types are derived again** at most. Chains keep their members, and it stays the same which
objects can be called. Where the types of a chain can be derived, the chain stays as it is or is not
stale afterwards; where they cannot, it keeps its signature. -/
structure Rederives (g g' : Graph) : Prop where
  callable : ∀ x, g'.Callable x ↔ g.Callable x
  chain : ∀ {y c'}, g'.find? y = some (.chain c') → ∃ c, g.find? y = some (.chain c) ∧
    c'.members = c.members ∧ (g.Derivable c.members → c' = c ∨ c'.stale = false) ∧
      (¬ g.Derivable c.members → c'.signature = c.signature)

theorem Rederives.derivable_iff (h : Rederives g g') :
    g'.Derivable members ↔ g.Derivable members :=
  ⟨.congr fun x => (h.callable x).1, .congr fun x => (h.callable x).2⟩

theorem Rederives.trans (h : Rederives g g') (h' : Rederives g' g'') : Rederives g g'' where
  callable := fun x => (h'.callable x).trans (h.callable x)
  chain := fun {y c''} hc'' => by
    obtain ⟨c', hc', hmembers', hderivable', hsignature'⟩ := h'.chain hc''
    obtain ⟨c, hc, hmembers, hderivable, hsignature⟩ := h.chain hc'
    rw [h.derivable_iff, hmembers] at hderivable' hsignature'
    refine ⟨c, hc, hmembers'.trans hmembers, fun hd => ?_, fun hd =>
      (hsignature' hd).trans (hsignature hd)⟩
    obtain rfl | hfresh := hderivable' hd
    · exact hderivable hd
    · exact .inr hfresh

/-- What is a stale chain afterwards was a chain with the same signature. -/
theorem Rederives.stale_source (h : Rederives g g') (hc' : g'.find? y = some (.chain c'))
    (hstale : c'.stale = true) :
    ∃ c, g.find? y = some (.chain c) ∧ c'.signature = c.signature := by
  obtain ⟨c, hc, -, hderivable, hsignature⟩ := h.chain hc'
  refine ⟨c, hc, ?_⟩
  by_cases hd : g.Derivable c.members
  · obtain rfl | hfresh := hderivable hd
    · rfl
    · rw [hstale] at hfresh
      cases hfresh
  · exact hsignature hd

/-- Where signatures and chains stay, nothing is derived. -/
theorem rederives_of_signature? (hsignature : ∀ x, g'.signature? x = g.signature? x)
    (hchain : ∀ y c, g'.find? y = some (.chain c) → g.find? y = some (.chain c)) :
    Rederives g g' where
  callable := fun x => by
    unfold Callable
    simp only [callable_eq_ok_iff, hsignature]
  chain := fun {y c'} hc' => ⟨c', hchain y c' hc', rfl, fun _ => .inl rfl, fun _ => rfl⟩

theorem Rederives.refl (g : Graph) : Rederives g g :=
  rederives_of_signature? (fun _ => rfl) fun _ _ hc => hc

/-- An object that is no chain takes the place of another with the same signature. -/
theorem rederives_of_replaced {o o' : Object} (ho : g.find? id = some o)
    (ho' : g'.find? id = some o') (hother : ∀ x, id ≠ x → g'.find? x = g.find? x)
    (hsignature : o'.signature? = o.signature?) (hchain : ∀ c, o' ≠ .chain c) :
    Rederives g g' :=
  rederives_of_signature? (signature?_of_replaced ho ho' hother hsignature)
    (find?_chain_of_replaced ho' hother hchain)

theorem Retyping.callable_iff {up : ObjectId → Nat} {p : ObjectId → Prop} (h : Retyping up p g g')
    (x : ObjectId) : g'.Callable x ↔ g.Callable x := by
  obtain ⟨s, hs, s', hs'⟩ | ⟨e, he, he'⟩ := h.callable x
  · exact iff_of_true ⟨s', hs'⟩ ⟨s, hs⟩
  · refine iff_of_false ?_ ?_ <;> rintro ⟨s, hs⟩
    · rw [he'] at hs
      cases hs
    · rw [he] at hs
      cases hs

theorem rederives_bump (g : Graph) (x : ObjectId) : Rederives g (g.bump x) where
  callable := (retyping_bump g x).callable_iff
  chain := fun {y c'} hc' => ⟨c', by rwa [find?_bump] at hc', rfl, fun _ => .inl rfl, fun _ => rfl⟩

theorem rederives_refresh (g : Graph) (x : ObjectId) : Rederives g (g.refresh x).2 where
  callable := (retyping_refresh g x).callable_iff
  chain := fun {y c'} hc' => by
    by_cases hx : x = y
    · subst hx
      obtain ⟨c, hc⟩ := (retyping_refresh g x).isChain_iff.1 ⟨c', hc'⟩
      rw [refresh_of_chain hc, find?_setObject_self hc] at hc'
      obtain rfl := Object.chain.inj (Option.some.inj hc')
      refine ⟨c, hc, members_rederive g c, ?_, fun hd => ?_⟩
      · rintro ⟨types, htypes⟩
        rw [rederive, htypes]
        exact .inr rfl
      · cases htypes : g.deriveTypes c.members with
        | ok types => exact absurd ⟨types, htypes⟩ hd
        | error e => rw [rederive, htypes]
    · refine ⟨c', ?_, rfl, fun _ => .inl rfl, fun _ => rfl⟩
      obtain h | ⟨c₁, c₂, -, -, h⟩ := refresh_eq g x
      · rwa [h] at hc'
      · rwa [h, find?_setObject_of_ne hx] at hc'

/-- **A touch derives types again** and does nothing else to chains. -/
theorem rederives_touch (g : Graph) (id : ObjectId) : Rederives g (g.touch id) := by
  have hadvance : Rederives g g.advance :=
    rederives_of_signature? (fun _ => rfl) fun _ _ hc => hc
  refine List.foldlRecOn (motive := Rederives g) _ _ hadvance fun g₁ h₁ x _ => ?_
  -- each round raises one object and refreshes the chains that refer to it
  exact List.foldlRecOn (motive := Rederives g) _ _ (h₁.trans (rederives_bump g₁ x))
    fun g₂ h₂ z _ => h₂.trans (rederives_refresh g₂ z)

end Graph

/-! ### Moves -/

namespace Store

variable {relinked removed : ObjectId → Prop} {s t : Store} {y : ObjectId} {c : Chain}

theorem Mild.rederives (h : Mild s t) : s.graph.Rederives t.graph := by
  cases h with
  | @function id f f' kept removed added hf hsig hold hnow =>
    have hrevised : s.graph.Rederives (s.graph.revise id (.function f') removed added) :=
      Graph.rederives_of_replaced hf (Graph.find?_revise_self hf)
        (fun x hx => Graph.find?_revise_of_ne hx) (congrArg some hsig) nofun
    exact hrevised.trans (Graph.rederives_touch _ id)
  | @unlinked v habsent hlink =>
    refine Graph.rederives_of_signature? (fun x => ?_) fun y c hc => ?_
    · rw [Graph.signature?, Graph.signature?]
      by_cases hx : s.fresh = x
      · -- a variable cannot be called, and neither can what is not there
        subst hx
        rw [Graph.find?_insert_self, habsent]
        rfl
      · rw [Graph.find?_insert_of_ne hx]
    · obtain ⟨-, heq⟩ | ⟨-, hc⟩ := Graph.find?_insert_cases hc
      · cases heq
      · exact hc

theorem rederives_of_mild (h : ReflTransGen Mild s t) : s.graph.Rederives t.graph := by
  induction h with
  | refl => exact .refl _
  | tail _ hstep ih => exact ih.trans hstep.rederives

/-- An object that is not a stale chain takes the place of what is there. -/
theorem stale_of_insert {g : Graph} {id : ObjectId} {o : Object}
    (hc : (g.insert id o).find? y = some (.chain c)) (hstale : c.stale = true)
    (ho : ∀ d, o = .chain d → d.stale = false) : g.find? y = some (.chain c) := by
  obtain ⟨-, rfl⟩ | ⟨-, hc⟩ := Graph.find?_insert_cases hc
  · rw [ho c rfl] at hstale
    cases hstale
  · exact hc

/-- **A chain that is stale after a move was there before, with the same signature.** -/
theorem Move.stale_source (h : Move relinked removed s t) (hc : t.graph.find? y = some (.chain c))
    (hstale : c.stale = true) :
    ∃ c₀, s.graph.find? y = some (.chain c₀) ∧ c.signature = c₀.signature := by
  cases h with
  | mild h => exact (rederives_of_mild h).stale_source hc hstale
  | refuse => exact ⟨c, hc, rfl⟩
  | make habsent ho =>
    refine ⟨c, stale_of_insert hc hstale ?_, rfl⟩
    rintro d rfl
    cases ho
    rfl
  | call habsent hparts hcheck => exact ⟨c, stale_of_insert hc hstale nofun, rfl⟩
  | chain habsent hmembers htypes =>
    refine ⟨c, stale_of_insert hc hstale ?_, rfl⟩
    rintro d hd
    cases hd
    rfl
  | @value id v w value changed hv hset =>
    have hw : (s.graph.setObject id (.var w)).find? id = some (.var w) :=
      Graph.find?_setObject_self hv _
    have hreplaced : s.graph.Rederives (s.graph.setObject id (.var w)) :=
      Graph.rederives_of_replaced hv hw (fun x hx => Graph.find?_setObject_of_ne hx) rfl nofun
    cases changed with
    | true => exact (hreplaced.trans (Graph.rederives_touch _ id)).stale_source hc hstale
    | false => exact hreplaced.stale_source hc hstale
  | @link id other v hid hv hother =>
    have hreplaced : s.graph.Rederives (s.graph.revise id (.var { v with link := some other })
        v.link.toList [other]) :=
      Graph.rederives_of_replaced hv (Graph.find?_revise_self hv)
        (fun x hx => Graph.find?_revise_of_ne hx) rfl nofun
    exact (hreplaced.trans (Graph.rederives_touch _ id)).stale_source hc hstale
  | @members id d members kept gone came hd hold hnow hmembers =>
    have hrefreshed := (Graph.rederives_refresh
      (s.graph.revise id (.chain { d with members }) gone came) id).trans
      (Graph.rederives_touch _ id)
    obtain ⟨c₁, hc₁, hsignature⟩ := hrefreshed.stale_source hc hstale
    -- before its types are derived, the chain has the signature that it had
    by_cases hy : id = y
    · subst hy
      rw [Graph.find?_revise_self hd] at hc₁
      obtain rfl := Object.chain.inj (Option.some.inj hc₁)
      exact ⟨d, hd, hsignature⟩
    · rw [Graph.find?_revise_of_ne hy] at hc₁
      exact ⟨c₁, hc₁, hsignature⟩
  | @remove id o hid ho =>
    obtain ⟨c₁, hc₁, hsignature⟩ := (Graph.rederives_touch _ id).stale_source hc hstale
    by_cases hy : id = y
    · subst hy
      rw [Graph.find?_discard_self] at hc₁
      cases hc₁
    · rw [Graph.find?_discard_of_ne hy] at hc₁
      exact ⟨c₁, hc₁, hsignature⟩

/-- What is added is not stale: its types are derived when it is. -/
theorem stale_of_add {id : ObjectId} {o : Object}
    (hc : (stateAfter (add id o) s).graph.find? y = some (.chain c)) (hstale : c.stale = true) :
    s.graph.find? y = some (.chain c) := by
  cases o with
  | chain d =>
    obtain hsame | ⟨-, types, -, hinsert⟩ := stateAfter_addChain id d s
    · rwa [hsame] at hc
    · rw [hinsert] at hc
      refine stale_of_insert hc hstale ?_
      rintro d hd
      cases hd
      rfl
  | _ => exact stale_of_insert hc hstale nofun

end Store

namespace Session

variable {σ τ : Session} {k : Nat} {y : ObjectId} {c : Chain}

/-- **A chain that is stale after an action was there before, with the same signature**, whatever the
action is. -/
theorem Action.stale_source (h : σ.Lawful) {a : Action}
    (hc : ((a.perform σ).graphs k).find? y = some (.chain c)) (hstale : c.stale = true) :
    ∃ c₀, (σ.graphs k).find? y = some (.chain c₀) ∧ c.signature = c₀.signature := by
  obtain ⟨id, o, rfl, hgraph⟩ | hadds := a.adds_cases σ k
  · rw [hgraph] at hc
    exact ⟨c, Store.stale_of_add hc hstale, rfl⟩
  · obtain hsame | hmove := Action.move h hadds
    · rw [hsame] at hc
      exact ⟨c, hc, rfl⟩
    · exact hmove.stale_source hc hstale

/-- Whether a chain of a graph is there and stale. -/
def StaleAt (k : Nat) (y : ObjectId) (σ : Session) : Prop :=
  ∃ c, (σ.graphs k).find? y = some (.chain c) ∧ c.stale = true

/-- A chain has been stale ever since: at least one action has been performed, and the chain was
stale after each. -/
abbrev StaleSince (k : Nat) (y : ObjectId) : Session → Session → Prop :=
  TransGen fun σ τ => Leads σ τ ∧ τ.StaleAt k y

/-- **Every stale chain was fresh for the last time at some point**, and has had the signature of
then ever since. -/
theorem Reachable.exists_last_fresh (h : τ.Reachable)
    (hc : (τ.graphs k).find? y = some (.chain c)) (hstale : c.stale = true) :
    ∃ σ c₀, σ.Reachable ∧ (σ.graphs k).find? y = some (.chain c₀) ∧ c₀.stale = false ∧
      StaleSince k y σ τ ∧ c.signature = c₀.signature := by
  induction h generalizing c with
  | empty => simp [Session.empty, Graph.empty, Graph.find?] at hc
  | @act σ h a ha ih =>
    have hlast : Leads σ (a.perform σ) ∧ (a.perform σ).StaleAt k y := ⟨⟨a, ha, rfl⟩, c, hc, hstale⟩
    obtain ⟨c₁, hc₁, hsignature⟩ := Action.stale_source h.lawful hc hstale
    cases hfresh : c₁.stale with
    | false => exact ⟨σ, c₁, h, hc₁, hfresh, .single hlast, hsignature⟩
    | true =>
      obtain ⟨σ₀, c₀, hσ₀, hc₀, hfresh₀, hsince, hsignature₀⟩ := ih hc₁ hfresh
      exact ⟨σ₀, c₀, hσ₀, hc₀, hfresh₀, hsince.tail hlast, hsignature.trans hsignature₀⟩

end Session

/-! ### What is declared -/

namespace Graph

variable {g : Graph} {names : Names} {id : ObjectId} {c : Chain} {name : String}

/-- Whether code declares a function with the arguments of the first of some members and the type
that the last one returns. -/
def DeclaresMembers (g : Graph) (members : List ObjectId) (name code : String) : Prop :=
  ∃ types, g.deriveTypes members = .ok types ∧ declared? code = some (types.2, name, types.1)

/-- The lines of a chain are written if its members can be called and have names. -/
theorem exists_chainCalls {members : List ObjectId}
    (hmembers : ∀ x ∈ members, g.Callable x ∧ ∃ name, names[x]? = some name) (position : Nat)
    (input : String) : ∃ calls, g.chainCalls names position input members = .ok calls := by
  induction members generalizing position input with
  | nil => exact ⟨_, rfl⟩
  | cons x members ih =>
    obtain ⟨⟨s, hs⟩, name, hname⟩ := hmembers x List.mem_cons_self
    have ih := ih fun y hy => hmembers y (List.mem_cons_of_mem x hy)
    rw [chainCalls, hs, Except.ok_bind, nameIn_eq_ok_iff.2 hname, Except.ok_bind]
    dsimp only
    split
    · obtain ⟨calls, hcalls⟩ := ih (position + 1) ""
      rw [hcalls]
      exact ⟨_, rfl⟩
    · obtain ⟨calls, hcalls⟩ := ih (position + 1) (resultLocal position)
      rw [hcalls]
      exact ⟨_, rfl⟩

/-- **The code of a chain declares the signature that the chain has**, whatever its members are by
now. -/
theorem exists_chainDefinition (hcheck : g.checkChain c = .ok ()) (hname : names[id]? = some name)
    (hword : IsWord name) (hmembers : ∀ x ∈ c.members, ∃ name, names[x]? = some name)
    (hsignature : c.signature.Readable) :
    ∃ code, g.chainDefinition names id c = .ok code ∧
      declared? code = some (c.signature.result, name, c.signature.arguments) := by
  obtain ⟨calls, hcalls⟩ := exists_chainCalls (fun x hx =>
    ⟨Closure.callable_of_checkChain hcheck x hx, hmembers x hx⟩) 0
      (", ".intercalate (c.signature.arguments.map (·.name)))
  rw [chainDefinition, hcheck, Except.ok_bind, nameIn_eq_ok_iff.2 hname, Except.ok_bind]
  dsimp only
  rw [hcalls, Except.ok_bind]
  refine ⟨_, rfl, ?_⟩
  rw [String.append_assoc]
  -- the first line is that of a program without lines
  exact declared?_opening (p := chainProgram name c.signature [])
    (isWord_chainProgram hsignature hword fun _ hf => absurd hf List.not_mem_nil) _

end Graph

namespace Session

variable {σ τ : Session} {k : Nat} {y : ObjectId} {c : Chain} {names : Names} {name : String}

/-- **A stale chain declares what it was when it was not stale for the last time.** If it passes
validation, by which time the types of its members can be derived, then it has a definition under
every name; and that declares the arguments of its first member and the type that its last one
returns just if they are those that the chain had then. -/
theorem stale_chain_declares (h : τ.Reachable) (hc : (τ.graphs k).find? y = some (.chain c))
    (hstale : c.stale = true) (hvalid : (τ.graphs k).validate y = .ok ())
    (hname : names[y]? = some name) (hword : IsWord name)
    (hmembers : ∀ x ∈ c.members, ∃ name, names[x]? = some name) :
    ∃ σ c₀ code, σ.Reachable ∧ (σ.graphs k).find? y = some (.chain c₀) ∧ c₀.stale = false ∧
      StaleSince k y σ τ ∧ (τ.graphs k).definition? names y = .ok (some code) ∧
      declared? code = some (c₀.signature.result, name, c₀.signature.arguments) ∧
      ((τ.graphs k).DeclaresMembers c.members name code ↔
        (τ.graphs k).deriveTypes c.members =
          .ok (c₀.signature.arguments, c₀.signature.result)) := by
  obtain ⟨σ, c₀, hσ, hc₀, hfresh, hsince, hsignature⟩ := h.exists_last_fresh hc hstale
  have hcheck : (τ.graphs k).checkChain c = .ok () := by
    rw [Graph.validate, Graph.get_eq_ok_iff.2 hc, Except.ok_bind] at hvalid
    exact hvalid
  obtain ⟨code, hcode, hdeclared⟩ := Graph.exists_chainDefinition hcheck hname hword hmembers
    (h.readable k y _ hc _ rfl)
  have hdefinition : (τ.graphs k).definition? names y = .ok (some code) := by
    rw [Graph.definition?, Graph.get_eq_ok_iff.2 hc, Except.ok_bind]
    dsimp only
    rw [hcode]
    rfl
  rw [hsignature] at hdeclared
  refine ⟨σ, c₀, code, hσ, hc₀, hfresh, hsince, hdefinition, hdeclared, ⟨?_, fun htypes =>
    ⟨_, htypes, hdeclared⟩⟩⟩
  rintro ⟨⟨arguments, result⟩, htypes, hdeclares⟩
  obtain ⟨rfl, -, rfl⟩ : c₀.signature.result = result ∧ name = name ∧
      c₀.signature.arguments = arguments := by
    simpa using hdeclared.symm.trans hdeclares
  exact htypes

/-- A chain of a function, a second one that is removed, and perhaps a third one. -/
def incompleteSession (members : List ObjectId) : Session :=
  (Action.edit 0 (.remove ⟨2⟩)).perform ((Action.copy 0 ⟨2⟩).perform (empty.edited 0
    [.function "float $f(float a) { return a; }", .function "vec2 $m(float a) { return vec2(a); }",
      .function "float $g(vec2 a) { return a.x; }", .chain "c" false members]))

/-- The second function, as it was removed. -/
def absentMember : Snippet where
  code := "vec2 $m(float a) { return vec2(a); }"
  signature := { name := "m", anonymous := true, arguments := [⟨"float", "a"⟩], result := "vec2" }
  template := Template.parse "vec2 $m(float a) { return vec2(a); }"
  placeholders := []
  staticNames := ["a"]
  bindings := ∅
  requires := []
  replacements := []

/-- The chain is edited while the function is not there, and then that comes back. -/
def completedSession (members : List ObjectId) (edits : List Operation) : Session :=
  (Action.add 0 ⟨2⟩ (.function absentMember)).perform ((incompleteSession members).edited 0 edits)

theorem reachable_completedSession {members : List ObjectId} {edits : List Operation}
    (hloose : (⟨2⟩, .function absentMember) ∈ ((incompleteSession members).edited 0 edits).loose) :
    (completedSession members edits).Reachable := by
  have hany : ReachableBy (fun _ _ => True) (incompleteSession members) :=
    ((ReachableBy.empty.edited fun _ _ _ => trivial).act (.copy 0 ⟨2⟩) trivial trivial).act
      (.edit 0 (.remove ⟨2⟩)) trivial trivial
  have hedited : ReachableBy (fun _ _ => True) ((incompleteSession members).edited 0 edits) :=
    hany.edited fun _ _ _ => trivial
  exact .act hedited.reachable (.add 0 ⟨2⟩ _) hloose

/-- Names for the functions and the chain. -/
def completedNames : Names :=
  ((((∅ : Names).insert ⟨1⟩ "f").insert ⟨2⟩ "m").insert ⟨3⟩ "g").insert ⟨4⟩ "c"

/-- The chain of the first function and the second one, or of what is left of all three. -/
def completedChain (result : String) : Chain where
  signature := { name := "c", anonymous := false, arguments := [⟨"float", "a"⟩], result }
  members := [⟨1⟩, ⟨2⟩]
  stale := true

/-- A chain that is not edited while its last member is gone declares what that returns when it has
come back. -/
theorem stale_chain_declares_completed :
    (completedSession [⟨1⟩, ⟨2⟩] []).Reachable ∧
    ((completedSession [⟨1⟩, ⟨2⟩] []).graphs 0).find? ⟨4⟩ = some (.chain (completedChain "vec2")) ∧
    ((completedSession [⟨1⟩, ⟨2⟩] []).graphs 0).validate ⟨4⟩ = .ok () ∧
    ∃ code, ((completedSession [⟨1⟩, ⟨2⟩] []).graphs 0).definition? completedNames ⟨4⟩ =
        .ok (some code) ∧
      declared? code = some ("vec2", "c", [⟨"float", "a"⟩]) ∧
      ((completedSession [⟨1⟩, ⟨2⟩] []).graphs 0).DeclaresMembers [⟨1⟩, ⟨2⟩] "c" code := by
  obtain ⟨hloose, hc, hvalid, htypes, hdeclares, hname, hmembers⟩ :
      (⟨2⟩, .function absentMember) ∈ ((incompleteSession [⟨1⟩, ⟨2⟩]).edited 0 []).loose ∧
      ((completedSession [⟨1⟩, ⟨2⟩] []).graphs 0).find? ⟨4⟩ =
        some (.chain (completedChain "vec2")) ∧
      ((completedSession [⟨1⟩, ⟨2⟩] []).graphs 0).validate ⟨4⟩ = .ok () ∧
      ((completedSession [⟨1⟩, ⟨2⟩] []).graphs 0).deriveTypes [⟨1⟩, ⟨2⟩] =
        .ok ([⟨"float", "a"⟩], "vec2") ∧
      (((completedSession [⟨1⟩, ⟨2⟩] []).graphs 0).definition? completedNames ⟨4⟩).map
        (·.bind declared?) = .ok (some ("vec2", "c", [⟨"float", "a"⟩])) ∧
      completedNames[(⟨4⟩ : ObjectId)]? = some "c" ∧
      ∀ x ∈ (completedChain "vec2").members, completedNames[x]?.isSome := by decide +kernel
  have hreachable : (completedSession [⟨1⟩, ⟨2⟩] []).Reachable := reachable_completedSession hloose
  obtain ⟨-, c₀, code, -, -, -, -, hcode, hdeclared, hiff⟩ := stale_chain_declares hreachable
    hc rfl hvalid hname (isWord_of_isName (by decide +kernel)) fun x hx =>
      Option.isSome_iff_exists.1 (hmembers x hx)
  -- what is declared shows which signature the chain had when it was not stale
  rw [hcode] at hdeclares
  have hdeclares := Except.ok.inj hdeclares
  have hsignature := hdeclared.symm.trans hdeclares
  rw [Option.some.injEq, Prod.mk.injEq, Prod.mk.injEq] at hsignature
  obtain ⟨hresult, -, harguments⟩ := hsignature
  refine ⟨hreachable, hc, hvalid, code, hcode, hdeclares, hiff.2 ?_⟩
  rw [hresult, harguments]
  exact htypes

/-- The third function is removed from the chain while the second one is gone. -/
def remainderSession : Session :=
  completedSession [⟨1⟩, ⟨2⟩, ⟨3⟩] [.removeMember ⟨4⟩ ⟨3⟩]

/-- **A member that comes back is not seen.** The chain keeps the type that the third function
returns, because its types could not be derived when that was removed. The second function comes
back, and the chain passes validation; but it is declared to return what its last member does not. -/
theorem returned_member_not_declared :
    remainderSession.Reachable ∧
    (remainderSession.graphs 0).find? ⟨4⟩ = some (.chain (completedChain "float")) ∧
    (∀ x ∈ (completedChain "float").members, ¬ StaleAt 0 x remainderSession) ∧
    (remainderSession.graphs 0).validate ⟨4⟩ = .ok () ∧
    (remainderSession.graphs 0).deriveTypes (completedChain "float").members =
      .ok ([⟨"float", "a"⟩], "vec2") ∧
    ∃ code, (remainderSession.graphs 0).definition? completedNames ⟨4⟩ = .ok (some code) ∧
      declared? code = some ("float", "c", [⟨"float", "a"⟩]) ∧
      ¬ (remainderSession.graphs 0).DeclaresMembers (completedChain "float").members "c" code := by
  obtain ⟨hloose, hc, hmembers, hvalid, htypes, hdeclares⟩ :
      (⟨2⟩, .function absentMember) ∈
        ((incompleteSession [⟨1⟩, ⟨2⟩, ⟨3⟩]).edited 0 [.removeMember ⟨4⟩ ⟨3⟩]).loose ∧
      (remainderSession.graphs 0).find? ⟨4⟩ = some (.chain (completedChain "float")) ∧
      (∀ x ∈ (completedChain "float").members,
        ((remainderSession.graphs 0).getChain x).isOk = false) ∧
      (remainderSession.graphs 0).validate ⟨4⟩ = .ok () ∧
      (remainderSession.graphs 0).deriveTypes (completedChain "float").members =
        .ok ([⟨"float", "a"⟩], "vec2") ∧
      ((remainderSession.graphs 0).definition? completedNames ⟨4⟩).map (·.bind declared?) =
        .ok (some ("float", "c", [⟨"float", "a"⟩])) := by decide +kernel
  obtain ⟨definition, hdefinition, hdeclares⟩ := Except.map_eq_ok_iff.1 hdeclares
  obtain ⟨code, rfl, hdeclared⟩ := Option.bind_eq_some_iff.1 hdeclares
  refine ⟨reachable_completedSession hloose, hc, ?_, hvalid, htypes, code, hdefinition, hdeclared,
    ?_⟩
  · rintro x hx ⟨c, hc, -⟩
    have hchain := hmembers x hx
    rw [Graph.getChain_eq_ok_iff.2 hc] at hchain
    cases hchain
  · rintro ⟨types, htypes', hdeclared'⟩
    obtain rfl := Except.ok.inj (htypes.symm.trans htypes')
    have hresult := (Prod.mk.inj (Option.some.inj (hdeclared.symm.trans hdeclared'))).1
    exact absurd hresult (by decide)

end Session

end ShaderLink
