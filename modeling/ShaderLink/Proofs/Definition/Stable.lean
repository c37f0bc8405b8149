import ShaderLink.Proofs.Graph.Change
import ShaderLink.Proofs.Graph.TypeWalk
import ShaderLink.Proofs.Linker.Emission

/-!
# What a definition depends on

The definition of an object **shows** the names of other objects: those bound to a function, the
members of a chain, and, through calls that are written out, their callees and arguments
(`Graph.Shows`). From one graph to another, an object that lasts keeps its definition, if it has one
in both and everything it shows is written alike in both: under the same name, or by the same text
(`agree_definition`).
-/

namespace ShaderLink

theorem Template.agree_substitute {ε : Type} {t : Template}
    {resolve resolve' : String → Except ε String} (h : ∀ p, Agree (resolve p) (resolve' p)) :
    Agree (t.substitute resolve) (t.substitute resolve') := by
  unfold substitute substituteM
  refine (agree_mapM fun part _ => ?_).bind fun parts => .refl _
  cases part with
  | text run => exact .refl _
  | placeholder name => exact h name

/-- The objects whose names show in the code of an object. -/
def Object.shown : Object → List ObjectId
  | .function s => s.boundObjects
  | .chain c => c.members
  | .call c => c.callee :: c.arguments
  | .var _ | .text _ => []

theorem Object.mem_references_of_shown {o : Object} {x : ObjectId} (h : x ∈ o.shown) :
    x ∈ o.references := by
  cases o <;> first | exact h | cases h

theorem Object.mem_dependencies_of_shown {o : Object} {x : ObjectId} (h : x ∈ o.shown) :
    x ∈ o.dependencies := by
  cases o with
  | function s => exact List.mem_append_right _ h
  | chain c => exact h
  | call c => exact h
  | var v => cases h
  | text code => cases h

theorem Object.Alike.shown_eq {o o' : Object} (h : o.Alike o') : o'.shown = o.shown := by
  cases h <;> rfl

/-- Only what can be called has a signature, and that stays the same object. -/
theorem Object.Alike.signature?_eq {o o' : Object} (h : o.Alike o') :
    o'.signature? = o.signature? := by
  cases h <;> rfl

namespace Graph

/-- Whether the name of an object shows in the definition of another, or in the expression of what
is written out there. -/
inductive Shows (g : Graph) : ObjectId → ObjectId → Prop where
  | direct {x y : ObjectId} {o : Object} (ho : g.find? x = some o) (hy : y ∈ o.shown) : Shows g x y
  | through {x y z : ObjectId} {o oz : Object} (ho : g.find? x = some o) (hz : z ∈ o.shown)
      (hoz : g.find? z = some oz) (he : oz.emitted = false) (h : Shows g z y) : Shows g x y

/-- An object that is written alike in two graphs: under the same name, and if it is written out
where it is used, as the same text or call. -/
structure WrittenAlike (g g' : Graph) (names names' : Names) (x : ObjectId) : Prop where
  name : names'[x]? = names[x]?
  keepsText : ∀ {o o' : Object}, g.find? x = some o → g'.find? x = some o' → o.KeepsText o'

variable {g g' : Graph} {names names' : Names} {x y : ObjectId} {o o' : Object}
  {p : ObjectId → Prop}

/-! ### Expressions -/

theorem agree_nameIn (h : names'[x]? = names[x]?) : Agree (nameIn names x) (nameIn names' x) := by
  rw [nameIn, nameIn, h]
  exact .refl _

/-- What is written out stays what it is, and the names in it stay the same. -/
theorem agree_expressionWithin {n m : Nat} (hx : WrittenAlike g g' names names' x)
    (hshows : ∀ o, g.find? x = some o → o.emitted = false →
      ∀ y, g.Shows x y → WrittenAlike g g' names names' y) :
    Agree (g.expressionWithin names n x) (g'.expressionWithin names' m x) := by
  -- the bounds may differ, so where one of the two runs out there is no answer to compare
  induction n generalizing x m with
  | zero =>
    intro e e' he
    cases he
  | succ n ih =>
    cases m with
    | zero =>
      intro e e' he he'
      cases he'
    | succ m =>
      rw [expressionWithin, expressionWithin]
      refine agree_bind fun o o' ho ho' => ?_
      rw [get_eq_ok_iff] at ho ho'
      have hkeeps := hx.keepsText ho ho'
      cases hemitted : o.emitted with
      | true =>
        -- both are mentioned by name, whatever they are
        have hemitted' := hkeeps.1.trans hemitted
        have hname := agree_nameIn hx.name
        cases o <;> cases hemitted <;> cases o' <;> first | exact hname | cases hemitted'
      | false =>
        obtain rfl := hkeeps.2 hemitted
        have hshown := hshows _ ho hemitted
        cases o' with
        | text code => exact .refl _
        | call c =>
          have hcallee := hshown c.callee (.direct ho List.mem_cons_self)
          refine (agree_mapM fun a ha => ?_).bind fun arguments =>
            (agree_nameIn hcallee.name).bind fun callee => .refl _
          have ha : a ∈ (Object.call c).shown := List.mem_cons_of_mem _ ha
          exact ih (hshown a (.direct ho ha))
            fun oa hoa hemitted y hy => hshown y (.through ho ha hoa hemitted hy)
        | _ => cases hemitted

/-! ### Types -/

/-- The step of the walk to a type stays the same for an object that lasts. -/
theorem Lasting.typeStep_eq (h : Lasting p g g') (hx : p x) : g'.typeStep x = g.typeStep x := by
  obtain ⟨o, ho⟩ := mem_ids_iff.1 (h.mem_ids hx).1
  obtain ⟨o', ho'⟩ := mem_ids_iff.1 (h.mem_ids hx).2
  rw [typeStep, typeStep, ho, ho']
  cases h.alike hx ho ho' <;> rfl

/-- An object passes on changes of what the walk to its type goes to. -/
theorem carries_of_typeStep (hs : g.typeStep x = some (.inr y)) :
    ∃ o, g.find? x = some o ∧ o.Carries y := by
  unfold typeStep at hs
  cases ho : g.find? x with
  | none => simp [ho] at hs
  | some o =>
    refine ⟨o, rfl, ?_⟩
    rw [ho] at hs
    cases o with
    | call c =>
      obtain rfl : c.callee = y := by simpa using hs
      exact List.mem_cons_self
    | var v =>
      dsimp only at hs
      split at hs
      · simp at hs
      · next hl => simpa [Object.Carries, hl] using hs
      · cases hs
    | _ => simp at hs

theorem Lasting.type?_eq (h : Lasting p g g') (hx : p x) {t t' : String}
    (ht : g.type? x = some t) (ht' : g'.type? x = some t') : t = t' := by
  obtain ⟨n, hn⟩ := type?_eq_some_iff.1 ht
  have hn' : g'.typeWithin n x = some t := by
    refine typeWithin_of_agree (p := p) (fun y hy _ => h.typeStep_eq hy)
      (fun y z hy hs hz => ?_) hx hn
    obtain ⟨o, ho, hc⟩ := carries_of_typeStep hs
    exact h.carried hy ho hc (mem_ids_of_typeStep hz)
  rw [type?_eq_some_iff.2 ⟨n, hn'⟩] at ht'
  exact Option.some.inj ht'

/-! ### Definitions by kind -/

theorem checkVariable_eq_ok {v : Variable} {q : Qualifier} {t : String}
    (h : g.checkVariable x v = .ok (q, t)) : v.qualifier = some q ∧ g.type? x = some t := by
  unfold checkVariable at h
  split at h
  · next q' t' hq ht =>
    split at h
    · cases h
    · cases h
      exact ⟨hq, ht⟩
  · cases h

theorem agree_variableDefinition (h : Lasting p g g') (hx : p x) {v v' : Variable}
    (halike : Object.Alike (.var v) (.var v')) (hname : names'[x]? = names[x]?) :
    Agree (g.variableDefinition names x v) (g'.variableDefinition names' x v') := by
  refine agree_bind fun (q, t) (q', t') hv hv' => ?_
  obtain ⟨hq, ht⟩ := checkVariable_eq_ok hv
  obtain ⟨hq', ht'⟩ := checkVariable_eq_ok hv'
  obtain rfl := h.type?_eq hx ht ht'
  have hqualifier : v'.qualifier = v.qualifier := by
    cases halike <;> rfl
  obtain rfl : q = q' := by
    rw [hqualifier, hq] at hq'
    exact Option.some.inj hq'
  refine (agree_nameIn hname).bind fun name => ?_
  by_cases hconst : q = .const
  · -- only here does the value show
    have hvalue : v'.value = v.value := by
      cases halike with
      | same => rfl
      | stored _ value state hstored => exact hstored (hq.trans (congrArg some hconst))
    rw [hvalue]
    exact .refl _
  · -- the declaration is made of qualifier, type and name, with a value or without
    simp only [hconst, if_false]
    split <;> split <;> exact .refl _

theorem agree_functionDefinition {s : Snippet} (hwf : s.WellFormed)
    (ho : g.find? x = some (.function s)) (hname : names'[x]? = names[x]?)
    (hshows : ∀ y, g.Shows x y → WrittenAlike g g' names names' y) :
    Agree (g.functionDefinition names x s) (g'.functionDefinition names' x s) := by
  rw [Closure.functionDefinition_eq, Closure.functionDefinition_eq]
  have hown : Agree (Closure.ownName names x s) (Closure.ownName names' x s) := by
    unfold Closure.ownName
    split
    · exact agree_nameIn hname
    · exact .refl _
  refine (Agree.refl _).bind fun _ => hown.bind fun own => Template.agree_substitute fun p => ?_
  unfold Closure.resolve
  split
  · exact .refl _
  · cases hz : s.bindings[p]? with
    | none => exact .refl _
    | some z =>
      have hshown : z ∈ (Object.function s).shown := Snippet.mem_boundObjects hwf hz
      exact agree_expressionWithin (hshows z (.direct ho hshown))
        fun oz hoz hemitted y hy => hshows y (.through ho hshown hoz hemitted hy)

theorem agree_chainCalls {position : Nat} {input : String} {members : List ObjectId}
    (hcallable : ∀ y ∈ members, Agree (g.callable y) (g'.callable y))
    (hnames : ∀ y ∈ members, names'[y]? = names[y]?) :
    Agree (g.chainCalls names position input members)
      (g'.chainCalls names' position input members) := by
  induction members generalizing position input with
  | nil => exact .refl _
  | cons y rest ih =>
    have ih : ∀ position input, Agree (g.chainCalls names position input rest)
        (g'.chainCalls names' position input rest) := fun position input =>
      ih (fun z hz => hcallable z (List.mem_cons_of_mem y hz))
        (fun z hz => hnames z (List.mem_cons_of_mem y hz))
    rw [chainCalls, chainCalls]
    refine (hcallable y List.mem_cons_self).bind fun s =>
      (agree_nameIn (hnames y List.mem_cons_self)).bind fun callee => ?_
    -- what the next member is called with depends on the signature alone
    dsimp only
    split
    · exact (ih _ _).bind fun r => .refl _
    · exact (ih _ _).bind fun r => .refl _

/-- What can be called has the same signature for as long as it lasts. -/
theorem agree_callable (h : Lasting p g g') (hx : p x) :
    Agree (g.callable x) (g'.callable x) := by
  refine agree_bind fun o o' ho ho' => ?_
  rw [get_eq_ok_iff] at ho ho'
  rw [(h.alike hx ho ho').signature?_eq]
  exact .refl _

theorem agree_chainDefinition (h : Lasting p g g') (hx : p x) {c : Chain}
    (ho : g.find? x = some (.chain c)) (hname : names'[x]? = names[x]?)
    (hshows : ∀ y, g.Shows x y → WrittenAlike g g' names names' y) :
    Agree (g.chainDefinition names x c) (g'.chainDefinition names' x c) := by
  -- the types of a member show in the chain, so it lasts if it is there
  have hcallable : ∀ y ∈ c.members, Agree (g.callable y) (g'.callable y) := by
    intro y hy s s' hs hs'
    obtain ⟨oy, hoy, -⟩ := Except.bind_eq_ok_iff.1 hs
    have hlasts := h.carried hx ho hy (mem_ids_of_find? (get_eq_ok_iff.1 hoy))
    exact agree_callable h hlasts s s' hs hs'
  refine agree_bind fun _ _ _ _ => (agree_nameIn hname).bind fun name => ?_
  exact (agree_chainCalls hcallable fun y hy => (hshows y (.direct ho hy)).name).bind
    fun calls => .refl _

/-- **An object that lasts keeps its definition** for as long as it keeps its name and everything it
shows is written alike. -/
theorem agree_definition (h : Lasting p g g') (hx : p x) (hwf : g.AllWellFormed)
    (hname : names'[x]? = names[x]?)
    (hshows : ∀ y, g.Shows x y → WrittenAlike g g' names names' y) :
    Agree (g.definition? names x) (g'.definition? names' x) := by
  refine agree_bind fun o o' ho ho' => ?_
  rw [get_eq_ok_iff] at ho ho'
  have halike := h.alike hx ho ho'
  -- objects that are alike are the same, but for variables
  cases o with
  | var v =>
    obtain ⟨v', rfl⟩ : ∃ v', o' = .var v' := by
      cases halike <;> exact ⟨_, rfl⟩
    exact (agree_variableDefinition h hx halike hname).map some
  | function s =>
    cases halike
    exact (agree_functionDefinition (hwf x _ ho) ho hname hshows).map some
  | chain c =>
    cases halike
    exact (agree_chainDefinition h hx ho hname hshows).map some
  | text code =>
    cases halike
    exact .refl _
  | call c =>
    cases halike
    exact .refl _

end Graph

end ShaderLink
