import ShaderLink.Proofs.Graph.TypeWalk

/-!
# Where links and callees lead

An untyped variable **defers** to what it is linked to, and a call to its callee (`Graph.DefersTo`):
their types are the types of those. Everything else is **typed** (`Graph.Typed`) or untyped for good
(`Graph.Untyped`), and no object is two of these (`typeStep_eq_inr_iff`, `typeStep_eq_inl_iff`,
`typeStep_eq_none_iff`).

Objects can be put back into a graph with the links they had, so links may run in a circle, and
nothing keeps a path of links from being as long as there are objects. `link_walks_exact` says that
the walks of bounded length answer as if they had no bound all the same: an object has the type that
its path ends at, and none if the path leaves the graph, ends at something untyped or has no end.
-/

namespace ShaderLink.Graph

open Relation

variable {g : Graph} {id x y : ObjectId} {t : String}

/-- An untyped variable defers to what it is linked to, and a call to its callee. -/
inductive DefersTo (g : Graph) (x : ObjectId) : ObjectId → Prop where
  | link {v : Variable} {y : ObjectId} (hx : g.find? x = some (.var v)) (htype : v.type = none)
      (hlink : v.link = some y) : DefersTo g x y
  | callee {c : Call} (hx : g.find? x = some (.call c)) : DefersTo g x c.callee

/-- A variable with a type of its own has that type, a function or chain the one it returns. -/
inductive Typed (g : Graph) (x : ObjectId) : String → Prop where
  | var {v : Variable} {t : String} (hx : g.find? x = some (.var v))
      (htype : v.type = some t) : Typed g x t
  | function {s : Snippet} (hx : g.find? x = some (.function s)) : Typed g x s.signature.result
  | chain {c : Chain} (hx : g.find? x = some (.chain c)) : Typed g x c.signature.result

/-- What is not there has no type, and neither has a text or a variable that is not linked and has
none of its own. -/
inductive Untyped (g : Graph) (x : ObjectId) : Prop where
  | absent (hx : g.find? x = none)
  | text {code : String} (hx : g.find? x = some (.text code))
  | var {v : Variable} (hx : g.find? x = some (.var v)) (htype : v.type = none)
      (hlink : v.link = none)

/-! ### One step -/

theorem DefersTo.typeStep_eq (h : g.DefersTo x y) : g.typeStep x = some (.inr y) := by
  cases h with
  | link hx htype hlink => simp only [typeStep, hx, htype, hlink]
  | callee hx => simp only [typeStep, hx]

theorem Typed.typeStep_eq (h : g.Typed x t) : g.typeStep x = some (.inl t) := by
  cases h with
  | var hx htype => simp only [typeStep, hx, htype]
  | function hx => simp only [typeStep, hx]
  | chain hx => simp only [typeStep, hx]

theorem Untyped.typeStep_eq (h : g.Untyped x) : g.typeStep x = none := by
  cases h with
  | absent hx => simp only [typeStep, hx]
  | text hx => simp only [typeStep, hx]
  | var hx htype hlink => simp only [typeStep, hx, htype, hlink]

/-- Every object is untyped, typed, or defers to another one. -/
theorem typed_or_defersTo (g : Graph) (x : ObjectId) :
    g.Untyped x ∨ (∃ t, g.Typed x t) ∨ ∃ y, g.DefersTo x y := by
  cases hx : g.find? x with
  | none => exact .inl (.absent hx)
  | some o =>
    cases o with
    | var v =>
      cases htype : v.type with
      | some type => exact .inr (.inl ⟨type, .var hx htype⟩)
      | none =>
        cases hlink : v.link with
        | some link => exact .inr (.inr ⟨link, .link hx htype hlink⟩)
        | none => exact .inl (.var hx htype hlink)
    | function s => exact .inr (.inl ⟨_, .function hx⟩)
    | chain c => exact .inr (.inl ⟨_, .chain hx⟩)
    | text code => exact .inl (.text hx)
    | call c => exact .inr (.inr ⟨_, .callee hx⟩)

theorem typeStep_eq_inr_iff : g.typeStep x = some (.inr y) ↔ g.DefersTo x y := by
  refine ⟨fun h => ?_, DefersTo.typeStep_eq⟩
  obtain hx | ⟨t, ht⟩ | ⟨z, hz⟩ := g.typed_or_defersTo x
  · cases h.symm.trans hx.typeStep_eq
  · cases h.symm.trans ht.typeStep_eq
  · cases h.symm.trans hz.typeStep_eq
    exact hz

theorem typeStep_eq_inl_iff : g.typeStep x = some (.inl t) ↔ g.Typed x t := by
  refine ⟨fun h => ?_, Typed.typeStep_eq⟩
  obtain hx | ⟨u, hu⟩ | ⟨z, hz⟩ := g.typed_or_defersTo x
  · cases h.symm.trans hx.typeStep_eq
  · cases h.symm.trans hu.typeStep_eq
    exact hu
  · cases h.symm.trans hz.typeStep_eq

theorem typeStep_eq_none_iff : g.typeStep x = none ↔ g.Untyped x := by
  refine ⟨fun h => ?_, Untyped.typeStep_eq⟩
  obtain hx | ⟨u, hu⟩ | ⟨z, hz⟩ := g.typed_or_defersTo x
  · exact hx
  · cases h.symm.trans hu.typeStep_eq
  · cases h.symm.trans hz.typeStep_eq

/-- A step of the walk is a step to what is deferred to. -/
theorem leads_typeStep (g : Graph) : Walk.Leads g.typeStep = g.DefersTo := by
  funext x y
  exact propext typeStep_eq_inr_iff

/-! ### Walks -/

/-- An object has no type exactly if no walk finds one. -/
theorem type?_eq_none_iff : g.type? id = none ↔ ∀ n, Walk.within g.typeStep n id = none := by
  constructor
  · intro h n
    cases hn : Walk.within g.typeStep n id with
    | none => rfl
    | some t =>
      rw [type?_eq_some_iff.2 ⟨n, typeWithin_eq.trans hn⟩] at h
      cases h
  · intro h
    rw [type?, typeWithin_eq]
    exact h _

/-- **The walks of bounded length answer the questions without a bound.** The type of an object is
the one at the end of the path along links of untyped variables and callees of calls. There is none
exactly if that path ends at something untyped, which may be something that is not there, or has no
end. And links lead from one object to another exactly if one or more links of variables do, one
after the other. All this holds of every graph, with links in circles or without. -/
theorem link_walks_exact (g : Graph) :
    (∀ id t, g.type? id = some t ↔ ∃ x, ReflTransGen g.DefersTo id x ∧ g.Typed x t) ∧
    (∀ id, g.type? id = none ↔ (∃ x, ReflTransGen g.DefersTo id x ∧ g.Untyped x) ∨
      ∃ path : Nat → ObjectId, path 0 = id ∧ ∀ n, g.DefersTo (path n) (path (n + 1))) ∧
    ∀ source target, g.linksTo source target = true ↔ TransGen g.LinkedTo source target := by
  refine ⟨fun id t => ?_, fun id => ?_, fun source target => linksTo_iff⟩
  · calc g.type? id = some t
        ↔ ∃ n, Walk.within g.typeStep n id = some t := by
          simp only [type?_eq_some_iff, typeWithin_eq]
      _ ↔ ∃ x, ReflTransGen g.DefersTo id x ∧ g.Typed x t := by
          simp only [Walk.exists_within_iff, leads_typeStep, typeStep_eq_inl_iff]
  · calc g.type? id = none
        ↔ ∀ n, Walk.within g.typeStep n id = none := type?_eq_none_iff
      _ ↔ _ := by
          simp only [Walk.forall_within_eq_none_iff, leads_typeStep, typeStep_eq_none_iff]

/-- Two varyings that are linked to each other, as when one is put back. -/
def linkedInCircle : Graph :=
  (Graph.empty.insert ⟨1⟩ (.var { Variable.varying "v" none with link := some ⟨2⟩ })).insert ⟨2⟩
    (.var { Variable.varying "w" none with link := some ⟨1⟩ })

/-- Their walk has no end, so they have no type; and each leads to itself. -/
example : linkedInCircle.type? ⟨1⟩ = none ∧ linkedInCircle.linksTo ⟨1⟩ ⟨1⟩ = true := by
  decide +kernel

end ShaderLink.Graph
