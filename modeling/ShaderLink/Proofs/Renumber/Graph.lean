import ShaderLink.Proofs.Closure.Collect
import ShaderLink.Proofs.Graph.TypeWalk
import ShaderLink.Proofs.Renumber.Object

/-!
# Graphs with the same objects under other identifiers

A graph **mirrors** another on some objects if it holds each of them, renumbered, under its other
identifier, and if these objects need no others: whatever one of them depends on or is linked to is
among them (`Graph.Mirrors`). What else the two graphs hold plays no part in what is asked about the
objects: what they are, their types, and whether they are valid.

The walk to a type is bounded by the size of the whole graph, and the two graphs may well differ in
size. That the bound plays no part was shown before (`Graph.type?_eq_some_iff`).
-/

namespace ShaderLink

namespace Graph

/-- **A mirror.** `g'` holds the objects of `p` as `g` does, under other identifiers. -/
structure Mirrors (f : ObjectId → ObjectId) (p : ObjectId → Prop) (g g' : Graph) : Prop where
  injective : Function.Injective f
  find?_eq : ∀ x, p x → g'.find? (f x) = (g.find? x).map (Object.renumber f)
  dependency : ∀ x, p x → ∀ y ∈ g.dependencies x, p y
  link : ∀ x, p x → ∀ y, g.LinkedTo x y → p y

variable {f : ObjectId → ObjectId} {p : ObjectId → Prop} {g g' : Graph} {x : ObjectId} {o : Object}

namespace Mirrors

theorem get (h : Mirrors f p g g') (hx : p x) :
    Corresponds f (fun o o' => o' = o.renumber f) (g.get x) (g'.get (f x)) := by
  unfold Graph.get
  rw [h.find?_eq x hx]
  cases g.find? x with
  | none => exact .error rfl
  | some o => exact .ok rfl

theorem dependencies_eq (h : Mirrors f p g g') (hx : p x) :
    g'.dependencies (f x) = (g.dependencies x).map f := by
  unfold dependencies
  rw [h.find?_eq x hx]
  cases g.find? x with
  | none => rfl
  | some o => exact o.dependencies_renumber

/-- What an object of the mirror depends on is of the mirror. -/
theorem of_dependency (h : Mirrors f p g g') (hx : p x) (ho : g.find? x = some o) {y : ObjectId}
    (hy : y ∈ o.dependencies) : p y :=
  h.dependency x hx y (by rwa [dependencies_of_find? ho])

theorem renames (h : Mirrors f p g g') :
    Traversal.Renames f p g.dependencies g'.dependencies where
  injective := h.injective
  next_eq := fun _ hx => h.dependencies_eq hx
  closed := h.dependency

theorem signature?_eq (h : Mirrors f p g g') (hx : p x) :
    g'.signature? (f x) = g.signature? x := by
  unfold signature?
  rw [h.find?_eq x hx]
  cases g.find? x with
  | none => rfl
  | some o => exact o.signature?_renumber

theorem callable (h : Mirrors f p g g') (hx : p x) :
    Corresponds f Eq (g.callable x) (g'.callable (f x)) := by
  refine (h.get hx).bind ?_
  rintro o _ rfl -
  rw [Object.signature?_renumber]
  cases o.signature? with
  | none => exact .error rfl
  | some s => exact .ok rfl

/-! ### Types -/

theorem typeStep_eq (h : Mirrors f p g g') (hx : p x) :
    g'.typeStep (f x) = (g.typeStep x).map (Sum.map id f) := by
  unfold typeStep
  rw [h.find?_eq x hx]
  cases g.find? x with
  | none => rfl
  | some o =>
    cases o with
    | var v =>
      obtain ⟨_, _, _, type, _, link, _⟩ := v
      cases type <;> cases link <;> rfl
    | _ => rfl

/-- The walk to a type goes on among the objects of the mirror. -/
theorem of_typeStep (h : Mirrors f p g g') (hx : p x) {y : ObjectId}
    (hy : g.typeStep x = some (.inr y)) : p y := by
  unfold typeStep at hy
  cases ho : g.find? x with
  | none => simp [ho] at hy
  | some o =>
    rw [ho] at hy
    cases o with
    | var v =>
      dsimp only at hy
      split at hy
      · simp at hy
      · next l _ hl =>
        obtain rfl : l = y := by simpa using hy
        exact h.link x hx l ⟨v, ho, hl⟩
      · cases hy
    | call c =>
      obtain rfl : c.callee = y := by simpa using hy
      exact h.of_dependency hx ho List.mem_cons_self
    | _ => simp at hy

theorem typeWithin_eq (h : Mirrors f p g g') (hx : p x) (n : Nat) :
    g'.typeWithin n (f x) = g.typeWithin n x := by
  induction n generalizing x with
  | zero => rfl
  | succ n ih =>
    rw [typeWithin_succ, typeWithin_succ, h.typeStep_eq hx]
    cases hs : g.typeStep x with
    | none => rfl
    | some r =>
      cases r with
      | inl type => rfl
      | inr y => exact ih (h.of_typeStep hx hs)

/-- **Objects have the same types**, however large the graphs are. -/
theorem type?_eq (h : Mirrors f p g g') (hx : p x) : g'.type? (f x) = g.type? x := by
  refine Option.ext fun t => ?_
  -- a type is the end of a walk of any length, so the sizes of the graphs play no part
  rw [type?_eq_some_iff, type?_eq_some_iff]
  simp only [h.typeWithin_eq hx]

/-! ### Validation -/

theorem checkVariable_eq (h : Mirrors f p g g') (hx : p x) (v : Variable) :
    g'.checkVariable (f x) (v.renumber f) = g.checkVariable x v := by
  unfold checkVariable
  rw [h.type?_eq hx]
  rfl

theorem deriveTypes (h : Mirrors f p g g') {members : List ObjectId}
    (hmembers : ∀ y ∈ members, p y) :
    Corresponds f Eq (g.deriveTypes members) (g'.deriveTypes (members.map f)) := by
  unfold Graph.deriveTypes
  rw [List.head?_map, List.getLast?_map]
  cases hfirst : members.head? with
  | none => exact .ok rfl
  | some first =>
    cases hlast : members.getLast? with
    | none => exact .ok rfl
    | some last =>
      have hfirst := h.callable (hmembers first (List.mem_of_head? hfirst))
      have hlast := h.callable (hmembers last (List.mem_of_getLast? hlast))
      refine hfirst.bind ?_
      rintro s _ rfl -
      refine hlast.bind ?_
      rintro t _ rfl -
      exact .ok rfl

theorem checkMembers (h : Mirrors f p g g') (chain : String) (flow : Flow) {members : List ObjectId}
    (hmembers : ∀ y ∈ members, p y) :
    Corresponds f Eq (g.checkMembers chain flow members)
      (g'.checkMembers chain flow (members.map f)) := by
  induction members generalizing flow with
  | nil => exact .ok rfl
  | cons y rest ih =>
    have ih : ∀ flow, Corresponds f Eq (g.checkMembers chain flow rest)
        (g'.checkMembers chain flow (rest.map f)) := fun flow =>
      ih flow fun z hz => hmembers z (List.mem_cons_of_mem y hz)
    rw [List.map_cons, Graph.checkMembers, Graph.checkMembers]
    refine (h.callable (hmembers y List.mem_cons_self)).bind ?_
    rintro s _ rfl -
    cases flow with
    | start => exact ih _
    | result source type =>
      dsimp only
      split
      · exact ih _
      · exact .error rfl

theorem checkChain (h : Mirrors f p g g') {c : Chain} (hmembers : ∀ y ∈ c.members, p y) :
    Corresponds f Eq (g.checkChain c) (g'.checkChain (c.renumber f)) := by
  have hcheck := h.checkMembers c.signature.name .start hmembers
  unfold Graph.checkChain
  rw [show (c.renumber f).stale = c.stale from rfl]
  split
  · exact (h.deriveTypes hmembers).bind fun _ _ _ _ => hcheck
  · exact hcheck

theorem checkCall (h : Mirrors f p g g') {c : Call} (hcallee : p c.callee) :
    Corresponds f Eq (g.checkCall c) (g'.checkCall (c.renumber f)) := by
  unfold Graph.checkCall
  rw [show (c.renumber f).callee = f c.callee from rfl, h.signature?_eq hcallee,
    show (c.renumber f).arguments = c.arguments.map f from rfl, List.length_map]
  cases g.signature? c.callee with
  | none => exact .error rfl
  | some s =>
    dsimp only
    split
    · exact .ok rfl
    · exact .error rfl

/-- A check that names no object fails the same. -/
theorem corresponds_self {α : Type} {x : Except LinkError α}
    (hx : ∀ e, x = .error e → e.renumber f = e) : Corresponds f Eq x x := by
  cases x with
  | ok a => exact .ok rfl
  | error e => exact .error (hx e rfl).symm

theorem checkBound (s : Snippet) : Corresponds f Eq s.checkBound s.checkBound := by
  refine corresponds_self fun e he => ?_
  unfold Snippet.checkBound at he
  split at he <;> cases he
  rfl

theorem checkVariable (h : Mirrors f p g g') (hx : p x) (v : Variable) :
    Corresponds f Eq (g.checkVariable x v) (g'.checkVariable (f x) (v.renumber f)) := by
  rw [h.checkVariable_eq hx]
  refine corresponds_self fun e he => ?_
  unfold Graph.checkVariable at he
  split at he
  · split at he <;> cases he
    rfl
  · cases he
    rfl

/-- **Objects are valid alike.** -/
theorem validate (h : Mirrors f p g g') (hx : p x) :
    Corresponds f Eq (g.validate x) (g'.validate (f x)) := by
  cases ho : g.find? x with
  | none =>
    have ho' : g'.find? (f x) = none := by rw [h.find?_eq x hx, ho]; rfl
    simp only [Graph.validate, Graph.get, ho, ho']
    exact .error rfl
  | some o =>
    have ho' : g'.find? (f x) = some (o.renumber f) := by rw [h.find?_eq x hx, ho]; rfl
    rw [Graph.validate, Graph.validate, get_eq_ok_iff.2 ho, get_eq_ok_iff.2 ho']
    have hdependency : ∀ y ∈ o.dependencies, p y := fun y => h.of_dependency hx ho
    cases o with
    | var v => exact (h.checkVariable hx v).bind fun _ _ _ _ => .ok rfl
    | function s =>
      show Corresponds f Eq s.checkBound (s.renumber f).checkBound
      rw [Snippet.checkBound_renumber]
      exact checkBound s
    | chain c => exact h.checkChain hdependency
    | call c => exact h.checkCall (hdependency c.callee List.mem_cons_self)
    | text code => exact .ok rfl

end Mirrors

end Graph

end ShaderLink
