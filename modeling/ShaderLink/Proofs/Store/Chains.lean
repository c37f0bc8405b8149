import ShaderLink.Proofs.Store.Session

/-!
# The types of chains are those of their members

A chain keeps the types that were last derived from its members. A change of a member has to travel
through all the chains around it, and a touch derives their types in the order in which it walks.

The chains of a graph are derived (`Graph.Derived`) as long as no edit tangles them: then a chain
that is not stale takes what its first member takes and returns what its last member returns
(`Session.chain_types`). An edit that tangles chains breaks this: a walk that comes to a chain
before one of its members does not come to it again, and the chains around it are left with types
that their members no longer have (`Session.chain_types_tangled`).
-/

namespace ShaderLink

namespace Graph

/-- Whether a chain takes what its first member takes and returns what its last member returns; one
without members takes and returns nothing. -/
def TypedBy (g : Graph) (c : Chain) : Prop :=
  match c.members.head?, c.members.getLast? with
  | some first, some last =>
    (g.signature? first).map (·.arguments) = some c.signature.arguments ∧
      (g.signature? last).map (·.result) = some c.signature.result
  | _, _ => c.signature.arguments = [] ∧ c.signature.result = Glsl.voidType

instance (g : Graph) (c : Chain) : Decidable (g.TypedBy c) := by
  unfold TypedBy
  split <;> infer_instance

variable {g : Graph} {c : Chain}

/-- A chain that has the types derived from its members is typed by them, unless it is stale. -/
theorem typedBy_of_rederive (h : g.rederive c = c) (hstale : c.stale = false) : g.TypedBy c := by
  rw [rederive_eq] at h
  cases htypes : (g.deriveTypes c.members).toOption with
  | none =>
    rw [htypes] at h
    rw [← h] at hstale
    cases hstale
  | some types =>
    rw [htypes] at h
    have harguments : c.signature.arguments = types.1 :=
      (congrArg (fun c : Chain => c.signature.arguments) h).symm
    have hresult : c.signature.result = types.2 :=
      (congrArg (fun c : Chain => c.signature.result) h).symm
    -- what was derived is what the first and the last member have, or the default without members
    rw [toOption_deriveTypes] at htypes
    unfold TypedBy
    rw [harguments, hresult]
    revert htypes
    cases c.members.head? with
    | none => rintro ⟨⟩; exact ⟨rfl, rfl⟩
    | some first =>
      cases c.members.getLast? with
      | none => rintro ⟨⟩; exact ⟨rfl, rfl⟩
      | some last =>
        intro htypes
        obtain ⟨s, hs, htypes⟩ := Option.bind_eq_some_iff.1 htypes
        obtain ⟨t, ht, rfl⟩ := Option.map_eq_some_iff.1 htypes
        dsimp only
        rw [hs, ht]
        exact ⟨rfl, rfl⟩

end Graph

namespace Session

variable {σ : Session} {k : Nat} {y : ObjectId} {c : Chain}

/-- The rule that nothing is added to a graph. -/
def AddsNothing (k : Nat) (_ : Session) (a : Action) : Prop :=
  ∀ x, ¬ a.Adds k x

/-- The rule that nothing is added to a graph and that no edit tangles its chains. -/
def Untangled (k : Nat) (σ : Session) (a : Action) : Prop :=
  AddsNothing k σ a ∧ ¬ a.Tangles σ k

theorem addsNothing_edit {j : Nat} (op : Operation) : AddsNothing k σ (.edit j op) :=
  fun _ => Action.not_adds_edit

theorem untangled_edit {op : Operation} (h : ¬ op.Tangles (σ.store k)) :
    Untangled k σ (.edit k op) := by
  refine ⟨addsNothing_edit op, ?_⟩
  rintro ⟨op', hop, htangles⟩
  cases hop
  exact h htangles

/-- Chains stay derived in a session without tangles. -/
theorem ReachableBy.derived (h : ReachableBy (Untangled k) σ) :
    (σ.graphs k).Exact ∧ (σ.graphs k).Derived σ.fresh.index := by
  induction h with
  | empty => exact ⟨fun _ _ => rfl, Graph.derived_empty _⟩
  | @act σ h a ha hrule ih =>
    obtain ⟨hexact, hderived⟩ := ih
    have hedited := Action.edited h.reachable.lawful ha hrule.1
    exact ⟨Graph.Steps.exact hedited.steps hexact,
      hedited.derived hrule.2 (h.reachable.lawful.store k) hexact hderived⟩

/-- **The types of chains are those of their members**, in every graph of a session to which nothing
was added and whose chains no edit has tangled: a chain that is not stale takes what its first
member takes and returns what its last member returns. -/
theorem chain_types (h : ReachableBy (Untangled k) σ)
    (hc : (σ.graphs k).find? y = some (.chain c)) (hstale : c.stale = false) :
    (σ.graphs k).TypedBy c :=
  Graph.typedBy_of_rederive (h.derived.2.types y c hc) hstale

/-- A session of two functions and of chains around the first, each around the one before. -/
def nestedSession : Session :=
  empty.edited 0 [.function "float $f(float a) { return a; }",
    .function "vec2 $g(vec2 a) { return a; }", .chain "inner" true [⟨1⟩],
    .chain "middle" true [⟨3⟩], .chain "outer" true [⟨4⟩, ⟨4⟩]]

/-- The session in which the second function takes the place of the first. -/
def replacedSession : Session :=
  (Action.edit 0 (.setMember ⟨3⟩ 0 ⟨2⟩)).perform nestedSession

/-- The chain `outer` of that session. -/
def replacedOuter : Chain where
  signature := ⟨"outer", true, [⟨"vec2", "a"⟩], "vec2"⟩
  members := [⟨4⟩, ⟨4⟩]
  stale := false

/-- The outer chain takes and returns what the second function does. -/
theorem chain_types_nested : ReachableBy (Untangled 0) replacedSession ∧
    (replacedSession.graphs 0).find? ⟨5⟩ = some (.chain replacedOuter) ∧
      (replacedSession.graphs 0).TypedBy replacedOuter := by
  have hnested : ReachableBy (Untangled 0) nestedSession := by
    refine ReachableBy.empty.edited fun op hop σ => untangled_edit ?_
    simp only [List.mem_cons, List.not_mem_nil, or_false] at hop
    obtain rfl | rfl | rfl | rfl | rfl := hop <;> exact id
  have horderly : (replacedSession.graphs 0).Orderly ⟨3⟩ := by decide +kernel
  have hreplaced : ReachableBy (Untangled 0) replacedSession :=
    hnested.act (.edit 0 (.setMember ⟨3⟩ 0 ⟨2⟩)) trivial
      (untangled_edit fun htangles => htangles.2 horderly)
  have houter : (replacedSession.graphs 0).find? ⟨5⟩ = some (.chain replacedOuter) := by
    decide +kernel
  exact ⟨hreplaced, houter, chain_types hreplaced houter rfl⟩

/-- A session in which `m` is around `i` twice, once directly and once through `z` and `y`, and `c`
is around `m`; then another function takes the place of the one in `i`. -/
def tangledSession : Session :=
  empty.edited 0 [.function "float $f(float a) { return a; }",
    .function "vec2 $g(vec2 a) { return a; }", .chain "i" true [⟨1⟩], .chain "z" true [⟨3⟩],
    .chain "y" true [⟨4⟩], .chain "m" true [⟨3⟩, ⟨5⟩], .chain "c" true [⟨6⟩],
    .setMember ⟨3⟩ 0 ⟨2⟩]

/-- The chain `c` of that session. -/
def tangledOuter : Chain where
  signature := ⟨"c", true, [⟨"vec2", "a"⟩], "float"⟩
  members := [⟨6⟩]
  stale := false

/-- **A tangle.** The walk comes to `m` before it comes to `y`, the last member of `m`. What `m`
returns in the end is not passed on to `c`, which is not stale either. -/
theorem chain_types_tangled : ReachableBy (AddsNothing 0) tangledSession ∧
    (tangledSession.graphs 0).find? ⟨7⟩ = some (.chain tangledOuter) ∧
      ¬ (tangledSession.graphs 0).TypedBy tangledOuter := by
  refine ⟨ReachableBy.empty.edited fun op _ _ => addsNothing_edit op, ?_, ?_⟩ <;> decide +kernel

end Session

end ShaderLink
