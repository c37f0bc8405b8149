import ShaderLink.Proofs.Graph.Nodes
import ShaderLink.Proofs.Traversal.Walk

/-!
# The walks over links

The type of an object is found at the end of a walk over links and callees. `typeStep` is one step
of that walk, and `typeWithin_succ` reads the walk through it. Whether links lead from one variable
to an object is a walk as well, which looks for that object (`linkStep`).

The bounds of these walks play no part in the answers: a walk that finds something meets different
objects that are all there, so it is no longer than there are objects (`type?_eq_some_iff`,
`linksTo_iff`). The type of an object therefore stays the same when objects come or go that the walk
does not meet (`typeWithin_of_agree`).
-/

namespace ShaderLink.Graph

variable {g g' : Graph} {id x y : ObjectId} {n : Nat} {t : String}

/-- What an object says about its type: the type, another object that has the same one, or
nothing. -/
def typeStep (g : Graph) (id : ObjectId) : Option (String ⊕ ObjectId) :=
  match g.find? id with
  | none | some (.text _) => none
  | some (.function s) => some (.inl s.signature.result)
  | some (.chain c) => some (.inl c.signature.result)
  | some (.call c) => some (.inr c.callee)
  | some (.var v) =>
    match v.type, v.link with
    | some type, _ => some (.inl type)
    | none, some link => some (.inr link)
    | none, none => none

theorem typeWithin_succ :
    g.typeWithin (n + 1) id =
      match g.typeStep id with
      | none => none
      | some (.inl type) => some type
      | some (.inr next) => g.typeWithin n next := by
  rw [typeWithin, typeStep]
  cases g.find? id with
  | none => rfl
  | some o =>
    cases o with
    | var v =>
      dsimp only
      split <;> simp_all
    | _ => rfl

theorem mem_ids_of_typeStep (h : g.typeStep id ≠ none) : id ∈ g.ids := by
  rw [mem_ids_iff]
  cases ho : g.find? id with
  | none => simp [typeStep, ho] at h
  | some o => exact ⟨o, rfl⟩

theorem typeWithin_eq : g.typeWithin n id = Walk.within g.typeStep n id := by
  induction n generalizing id with
  | zero => rfl
  | succ n ih =>
    rw [typeWithin_succ, Walk.within]
    split
    · next hs => rw [hs]
    · next hs => rw [hs]
    · next hs => rw [hs, ih]

theorem typeStep_ne_none_of_typeWithin (h : g.typeWithin n id = some t) : g.typeStep id ≠ none :=
  Walk.step_ne_none (typeWithin_eq ▸ h)

/-- **The bound plays no part**: the type of an object is what a walk of some length finds. -/
theorem type?_eq_some_iff : g.type? id = some t ↔ ∃ n, g.typeWithin n id = some t := by
  refine ⟨fun h => ⟨_, h⟩, fun ⟨n, h⟩ => ?_⟩
  rw [typeWithin_eq] at h
  rw [type?, typeWithin_eq, walkBound, ← length_ids]
  exact Walk.within_mono (Walk.within_length (fun _ => mem_ids_of_typeStep) h) (Nat.le_succ _)

/-- A walk finds the same type in another graph, if the objects it meets say the same there. The
objects it can meet are those of `p`. -/
theorem typeWithin_of_agree {p : ObjectId → Prop}
    (hstep : ∀ x, p x → g.typeStep x ≠ none → g'.typeStep x = g.typeStep x)
    (hnext : ∀ x y, p x → g.typeStep x = some (.inr y) → g.typeStep y ≠ none → p y)
    (hp : p id) (h : g.typeWithin n id = some t) : g'.typeWithin n id = some t := by
  induction n generalizing id with
  | zero => cases h
  | succ n ih =>
    -- the walk goes on from here, so `id` is an object that says the same in both graphs
    have hne := typeStep_ne_none_of_typeWithin h
    rw [typeWithin_succ] at h ⊢
    rw [hstep id hp hne]
    cases hs : g.typeStep id with
    | none => exact absurd hs hne
    | some r =>
      cases r with
      | inl type => simpa [hs] using h
      | inr next =>
        simp only [hs] at h ⊢
        exact ih (hnext id next hp hs (typeStep_ne_none_of_typeWithin h)) h

/-! ### Links -/

/-- What a variable is linked to. -/
def link? (g : Graph) (x : ObjectId) : Option ObjectId :=
  match g.find? x with
  | some (.var v) => v.link
  | _ => none

/-- A variable is linked to an object. -/
def LinkedTo (g : Graph) (x y : ObjectId) : Prop :=
  ∃ v, g.find? x = some (.var v) ∧ v.link = some y

theorem link?_eq_some_iff : g.link? x = some y ↔ g.LinkedTo x y := by
  unfold link? LinkedTo
  split
  · next v ho => simp [ho]
  · next h =>
    refine iff_of_false (by simp) ?_
    rintro ⟨v, ho, -⟩
    exact h v ho

theorem linksWithin_succ :
    g.linksWithin (n + 1) x y = (g.link? x).any fun l => l = y || g.linksWithin n l y := by
  rw [linksWithin, link?]
  cases g.find? x with
  | none => rfl
  | some o =>
    cases o with
    | var v =>
      obtain ⟨_, _, _, _, _, link, _⟩ := v
      cases link <;> rfl
    | _ => rfl

/-- One step of the walk that looks for an object behind links. -/
def linkStep (g : Graph) (target x : ObjectId) : Option (Unit ⊕ ObjectId) :=
  (g.link? x).map fun l => if l = target then .inl () else .inr l

theorem mem_ids_of_linkStep (h : g.linkStep y x ≠ none) : x ∈ g.ids := by
  cases hl : g.link? x with
  | none => simp [linkStep, hl] at h
  | some l =>
    obtain ⟨v, ho, -⟩ := link?_eq_some_iff.1 hl
    exact mem_ids_of_find? ho

theorem linksWithin_eq : g.linksWithin n x y = (Walk.within (g.linkStep y) n x).isSome := by
  induction n generalizing x with
  | zero => rfl
  | succ n ih =>
    rw [linksWithin_succ, Walk.within, linkStep]
    cases g.link? x with
    | none => rfl
    | some l => by_cases hl : l = y <;> simp [hl, ih]

/-- What a walk over links finds, links lead to. -/
theorem transGen_of_linksWithin (h : g.linksWithin n x y = true) :
    Relation.TransGen g.LinkedTo x y := by
  induction n generalizing x with
  | zero => cases h
  | succ n ih =>
    rw [linksWithin_succ, Option.any_eq_true] at h
    obtain ⟨l, hl, h⟩ := h
    have hl := link?_eq_some_iff.1 hl
    simp only [Bool.or_eq_true, decide_eq_true_eq] at h
    obtain rfl | h := h
    · exact .single hl
    · exact .head hl (ih h)

/-- What links lead to is found by a walk that is long enough. -/
theorem exists_linksWithin (h : Relation.TransGen g.LinkedTo x y) :
    ∃ n, g.linksWithin n x y = true := by
  induction h using Relation.TransGen.head_induction_on with
  | single hl => exact ⟨1, by simp [linksWithin_succ, link?_eq_some_iff.2 hl]⟩
  | head hl _ ih =>
    obtain ⟨n, hn⟩ := ih
    exact ⟨n + 1, by simp [linksWithin_succ, link?_eq_some_iff.2 hl, hn]⟩

/-- **Links lead from one variable to an object** if and only if the walk of bounded length finds
it. -/
theorem linksTo_iff : g.linksTo x y = true ↔ Relation.TransGen g.LinkedTo x y := by
  refine ⟨transGen_of_linksWithin, fun h => ?_⟩
  obtain ⟨n, hn⟩ := exists_linksWithin h
  rw [linksWithin_eq, Option.isSome_iff_exists] at hn
  obtain ⟨found, hn⟩ := hn
  rw [linksTo, linksWithin_eq, walkBound, ← length_ids, Option.isSome_iff_exists]
  have hwalk := Walk.within_length (fun _ => mem_ids_of_linkStep) hn
  exact ⟨found, Walk.within_mono hwalk (Nat.le_succ _)⟩

end ShaderLink.Graph
