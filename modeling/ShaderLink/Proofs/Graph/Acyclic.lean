import Mathlib.Logic.Relation
import ShaderLink.Proofs.Closure.Collect
import ShaderLink.Proofs.Graph.Step
import ShaderLink.Proofs.Graph.TypeWalk

/-!
# No circles

Two **ways** lead from an object to others: to what it depends on, and from a variable to what it is
linked to (`Way`). A graph is **grounded** along a way if it leads nothing back to itself and only
to identifiers that were handed out (`Graph.Grounded`). Both parts are needed of what goes on
pointing to an object that is gone: a new object cannot take its place, as its identifier was never
handed out.

What may be added to a grounded graph are arrows from one object to objects that do not lead to it
(`Graph.Grounded.add`). That is what edits ask for: `Graph.reaches_iff` and `Graph.linksTo_iff` say
that they ask for exactly that.
-/

namespace ShaderLink

open Relation

/-- New arrows of one thing close no circle, if nothing that they point to led back to it. -/
theorem not_transGen_self_of_add {α : Type} {r r' : α → α → Prop} {a : α}
    (hr : ∀ x, ¬ TransGen r x x)
    (hadd : ∀ x y, r' x y → r x y ∨ (x = a ∧ ¬ ReflTransGen r y a)) (x : α) :
    ¬ TransGen r' x x := by
  -- from where nothing leads to `a`, the new arrows lead nowhere else
  have hout : ∀ {y z}, ¬ ReflTransGen r y a → ReflTransGen r' y z → ReflTransGen r y z := by
    intro y z hy h
    induction h with
    | refl => exact .refl
    | tail _ hbc ih =>
      obtain hbc | ⟨rfl, -⟩ := hadd _ _ hbc
      · exact ih.tail hbc
      · exact absurd ih hy
  -- a path keeps to the old arrows, or there is the last point at which it does not
  have hpath : ∀ {z}, TransGen r' x z → TransGen r x z ∨
      ∃ y, ReflTransGen r' x a ∧ ¬ ReflTransGen r y a ∧ ReflTransGen r' y z := by
    intro z h
    induction h with
    | single hxy =>
      obtain hxy | ⟨rfl, hy⟩ := hadd _ _ hxy
      · exact .inl (.single hxy)
      · exact .inr ⟨_, .refl, hy, .refl⟩
    | tail hxb hbc ih =>
      obtain ih | ⟨y, hxa, hy, hyb⟩ := ih
      · obtain hbc | ⟨rfl, hc⟩ := hadd _ _ hbc
        · exact .inl (ih.tail hbc)
        · exact .inr ⟨_, hxb.to_reflTransGen, hc, .refl⟩
      · exact .inr ⟨y, hxa, hy, hyb.tail hbc⟩
  intro hcycle
  obtain hcycle | ⟨y, hxa, hy, hyx⟩ := hpath hcycle
  · exact hr x hcycle
  · exact hy (hout hy (hyx.trans hxa))

/-- The ways that lead from an object to others. -/
inductive Way where
  /-- To what it depends on. -/
  | dependency
  /-- To what it is linked to. -/
  | link

/-- The objects that a way leads to from an object. -/
def Way.targets : Way → Object → List ObjectId
  | dependency, o => o.dependencies
  | link, .var v => v.link.toList
  | link, _ => []

theorem Object.Retyped.targets_eq {o o' : Object} (h : o.Retyped o') (w : Way) :
    w.targets o' = w.targets o := by
  cases h <;> cases w <;> rfl

namespace Graph

/-- An object that is there points to another. -/
def Points (g : Graph) (w : Way) (x y : ObjectId) : Prop :=
  ∃ o, g.find? x = some o ∧ y ∈ w.targets o

variable {g g' : Graph} {w : Way} {id x y : ObjectId} {o o' : Object} {removed added : List ObjectId}
  {n m : Nat}

theorem points_dependency : g.Points .dependency = Traversal.Edge g.dependencies := by
  funext x y
  apply propext
  unfold Points Traversal.Edge dependencies Way.targets
  cases g.find? x <;> simp

theorem points_link : g.Points .link = g.LinkedTo := by
  funext x y
  apply propext
  constructor
  · rintro ⟨o, ho, hy⟩
    cases o with
    | var v => exact ⟨v, ho, by simpa [Way.targets] using hy⟩
    | _ => cases hy
  · rintro ⟨v, hv, hy⟩
    exact ⟨.var v, hv, by simp [Way.targets, hy]⟩

/-- **Whether an object is or depends on another** is what a traversal of dependencies finds. -/
theorem reaches_iff : g.reaches x y = true ↔ ReflTransGen (g.Points .dependency) x y := by
  rw [reaches, List.contains_iff_mem, Traversal.mem_preorder_iff fun _ => mem_horizon,
    points_dependency]
  simp [Traversal.Reachable]

/-! ### What points where after a change -/

theorem points_of_touch (h : (g.touch id).Points w x y) : g.Points w x y := by
  obtain ⟨o', ho', hy⟩ := h
  obtain ⟨o, ho, hr⟩ := find?_of_touch ho'
  exact ⟨o, ho, hr.targets_eq w ▸ hy⟩

theorem points_of_discard (h : (g.discard id o).Points w x y) : g.Points w x y := by
  obtain ⟨o₁, ho₁, hy⟩ := h
  by_cases hx : id = x
  · subst hx
    rw [find?_discard_self] at ho₁
    cases ho₁
  · exact ⟨o₁, find?_discard_of_ne hx ▸ ho₁, hy⟩

theorem points_of_insert (h : (g.insert id o).Points w x y) :
    g.Points w x y ∨ (x = id ∧ y ∈ w.targets o) := by
  obtain ⟨o₁, ho₁, hy⟩ := h
  by_cases hx : id = x
  · subst hx
    rw [find?_insert_self] at ho₁
    cases ho₁
    exact .inr ⟨rfl, hy⟩
  · exact .inl ⟨o₁, find?_insert_of_ne hx ▸ ho₁, hy⟩

theorem points_of_setObject (ho : g.find? id = some o) (h : (g.setObject id o').Points w x y) :
    g.Points w x y ∨ (x = id ∧ y ∈ w.targets o') := by
  obtain ⟨o₁, ho₁, hy⟩ := h
  by_cases hx : id = x
  · subst hx
    rw [find?_setObject_self ho] at ho₁
    cases ho₁
    exact .inr ⟨rfl, hy⟩
  · exact .inl ⟨o₁, find?_setObject_of_ne hx ▸ ho₁, hy⟩

/-- The record of references is no part of where objects point. -/
theorem points_of_revise (ho : g.find? id = some o)
    (h : (g.revise id o' removed added).Points w x y) :
    g.Points w x y ∨ (x = id ∧ y ∈ w.targets o') := by
  refine points_of_setObject ho ?_
  simpa [Points, revise] using h

/-! ### Grounded graphs -/

/-- **A grounded graph**: a way leads nothing back to itself, and only to identifiers that were
handed out, whether or not the objects are still there. -/
structure Grounded (g : Graph) (w : Way) (n : Nat) : Prop where
  irreflexive : ∀ x, ¬ TransGen (g.Points w) x x
  bounded : ∀ x y, g.Points w x y → y.index < n

theorem grounded_empty : Graph.empty.Grounded w n where
  irreflexive := fun x h => by
    obtain ⟨y, ⟨o, ho, -⟩, -⟩ := TransGen.head'_iff.1 h
    simp [Graph.empty, find?] at ho
  bounded := by
    rintro x y ⟨o, ho, -⟩
    simp [Graph.empty, find?] at ho

theorem Grounded.mono (h : g.Grounded w n) (hnm : n ≤ m) : g.Grounded w m where
  irreflexive := h.irreflexive
  bounded := fun x y hxy => Nat.lt_of_lt_of_le (h.bounded x y hxy) hnm

/-- **Arrows may be added** from one object to objects that do not lead to it. -/
theorem Grounded.add (h : g.Grounded w n) (id : ObjectId)
    (hadd : ∀ x y, g'.Points w x y → g.Points w x y ∨
      (x = id ∧ y.index < n ∧ ¬ ReflTransGen (g.Points w) y id)) : g'.Grounded w n where
  irreflexive := not_transGen_self_of_add h.irreflexive fun x y hxy =>
    (hadd x y hxy).imp_right fun hnew => ⟨hnew.1, hnew.2.2⟩
  bounded := fun x y hxy => (hadd x y hxy).elim (h.bounded x y) fun hnew => hnew.2.1

theorem Grounded.of_points (h : g.Grounded w n) (hsub : ∀ x y, g'.Points w x y → g.Points w x y) :
    g'.Grounded w n :=
  h.add ⟨0⟩ fun x y hxy => .inl (hsub x y hxy)

theorem Grounded.touch (h : g.Grounded w n) (id : ObjectId) : (g.touch id).Grounded w n :=
  h.of_points fun _ _ => points_of_touch

/-- Another object takes the place of one, and points where that did or to what does not lead to
it. -/
theorem Grounded.revise (h : g.Grounded w n) (ho : g.find? id = some o)
    (removed added : List ObjectId)
    (htargets : ∀ y ∈ w.targets o', y ∈ w.targets o ∨
      (y.index < n ∧ ¬ ReflTransGen (g.Points w) y id)) :
    (g.revise id o' removed added).Grounded w n := by
  refine h.add id fun x y hxy => ?_
  obtain hxy | ⟨rfl, hy⟩ := points_of_revise ho hxy
  · exact .inl hxy
  · obtain hold | hnew := htargets y hy
    · exact .inl ⟨o, ho, hold⟩
    · exact .inr ⟨rfl, hnew⟩

/-- A new object points to what was there before it, and nothing that is there points to it. -/
theorem Grounded.insert (h : g.Grounded w n) (hid : id.index = n)
    (htargets : ∀ y ∈ w.targets o, y.index < n) : (g.insert id o).Grounded w (n + 1) := by
  refine (h.mono (Nat.le_succ n)).add id fun x y hxy => ?_
  obtain hxy | ⟨rfl, hy⟩ := points_of_insert hxy
  · exact .inl hxy
  · -- a path back would end with an arrow to an identifier that was not handed out
    have hlt := htargets y hy
    refine .inr ⟨rfl, Nat.lt_succ_of_lt hlt, fun hpath => ?_⟩
    obtain rfl | ⟨z, -, hz⟩ := ReflTransGen.cases_tail hpath
    · exact Nat.ne_of_lt hlt hid
    · exact Nat.ne_of_lt (h.bounded z _ hz) hid

end Graph

end ShaderLink
