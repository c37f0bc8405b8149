import ShaderLink.Proofs.Graph.Acyclic
import ShaderLink.Proofs.Store.Chains

/-!
# No edit closes a circle

Nothing in a graph ever depends on itself, and no links of variables run in a circle, as long as
nothing is added to the graph that was made elsewhere (`Session.ReachableBy.grounded`). For every
effect that an edit may have (`Store.Effect.grounded`) the reason is one of these:

* the object is new, and points only to objects that are there;
* the object loses some of what it points to, as with `unbind`, `replace` and `remove`;
* the object points to one more, which was asked whether it leads back: `bind`, `link` and the edits
  of chains. A chain whose types cannot be derived afterwards keeps the member, but it was asked.
-/

namespace ShaderLink

open Relation

theorem Snippet.mem_targets {s : Snippet} {w : Way} {y : ObjectId}
    (h : y ∈ w.targets (.function s)) : y ∈ s.requires ∨ y ∈ s.boundObjects := by
  cases w with
  | dependency => exact List.mem_append.1 h
  | link => cases h

theorem Chain.mem_targets {c : Chain} {w : Way} {y : ObjectId} (h : y ∈ w.targets (.chain c)) :
    y ∈ c.members := by
  cases w with
  | dependency => exact h
  | link => cases h

theorem Call.mem_targets {c : Call} {w : Way} {y : ObjectId} (h : y ∈ w.targets (.call c)) :
    y ∈ c.callee :: c.arguments := by
  cases w with
  | dependency => exact h
  | link => cases h

theorem Variable.mem_targets {v : Variable} {w : Way} {y : ObjectId} (h : y ∈ w.targets (.var v)) :
    v.link = some y := by
  cases w with
  | dependency => cases h
  | link => simpa [Way.targets] using h

/-- A new variable is not linked. -/
theorem Object.New.not_mem_link {o : Object} (h : o.New) (y : ObjectId) : y ∉ Way.link.targets o := by
  cases h <;> nofun

namespace Store

/-- The graph of a store is grounded among the identifiers that the store has handed out. -/
def Grounded (w : Way) (s : Store) : Prop := s.graph.Grounded w s.fresh.index

variable {s t : Store} {w : Way} {o : Object} {x y : ObjectId}

/-- Identifiers may be handed out and the graph left as it is. -/
theorem Grounded.idle (h : s.Grounded w) (hgraph : t.graph = s.graph)
    (hfresh : s.fresh.index ≤ t.fresh.index) : t.Grounded w := by
  unfold Grounded
  rw [hgraph]
  exact Graph.Grounded.mono h hfresh

/-- An object under the identifier that was handed out for it points to objects that are there. -/
theorem Grounded.insert (h : s.Grounded w) (ho : ∀ y ∈ w.targets o, y.index < s.fresh.index) :
    Grounded w ⟨s.graph.insert s.fresh o, s.fresh.next⟩ :=
  Graph.Grounded.insert h rfl ho

/-! ### Effects -/

/-- An object takes the place of one, and points where that did or to what does not lead to it. -/
theorem Grounded.revise {id : ObjectId} {o' : Object} (h : s.Grounded w)
    (ho : s.graph.find? id = some o) (removed added : List ObjectId)
    (htargets : ∀ y ∈ w.targets o', y ∈ w.targets o ∨
      (y.index < s.fresh.index ∧ ¬ ReflTransGen (s.graph.Points w) y id)) :
    Grounded w { s with graph := (s.graph.revise id o' removed added).touch id } :=
  (Graph.Grounded.revise h ho removed added htargets).touch id

/-- A function is bound to other objects, each of them one that does not lead to it. -/
theorem Grounded.rebinds {f : ObjectId} {snippet snippet' : Snippet}
    {kept removed added : List ObjectId} (h : s.Grounded w) (hs : s.Lawful)
    (hf : s.graph.find? f = some (.function snippet))
    (hrebinds : snippet.Rebinds snippet' kept removed added)
    (hadded : ∀ x ∈ added, x ∈ s.graph.ids ∧ ¬ s.graph.reaches x f) :
    Grounded w
      { s with graph := (s.graph.revise f (.function snippet') removed added).touch f } := by
  refine h.revise hf removed added fun y hy => ?_
  cases w with
  | link => cases hy
  | dependency =>
    obtain hy | hy := Snippet.mem_targets hy
    · exact .inl (List.mem_append_left _ (hrebinds.requires_eq ▸ hy))
    · -- what it is bound to now was kept, or was added
      obtain hy | hy := List.mem_append.1 (hrebinds.now.mem_iff.1 hy)
      · have hbefore := hrebinds.before.mem_iff.2 (List.mem_append_left _ hy)
        exact .inl (List.mem_append_right _ hbefore)
      · obtain ⟨hmem, hreaches⟩ := hadded y hy
        exact .inr ⟨hs.bounded y hmem, fun hpath => hreaches (Graph.reaches_iff.2 hpath)⟩

theorem Rebound.grounded {f : ObjectId} (hrebound : Rebound f s t) (hs : s.Lawful)
    (h : s.Grounded w) : t.Grounded w := by
  cases hrebound with
  | same => exact h
  | revise hf hrebinds _ hadded => exact h.rebinds hs hf hrebinds hadded

/-- **No effect closes a circle.** -/
theorem Effect.grounded {op : Operation} (heffect : s.Effect op t) (hs : s.Lawful)
    (h : s.Grounded w) : t.Grounded w := by
  cases heffect with
  | same => exact h
  | refuse => exact h.idle rfl (Nat.le_succ _)
  | make _ ho _ hthere =>
    refine h.insert fun y hy => ?_
    cases w with
    | dependency => exact hs.bounded y (hthere y hy)
    | link => exact absurd hy (ho.not_mem_link y)
  | call _ hparts _ => exact h.insert fun y hy => hs.bounded y (hparts y (Call.mem_targets hy))
  | chain _ hmembers _ =>
    refine h.insert fun y hy => hs.bounded y (hmembers y ?_).mem_ids
    exact (Chain.mem_targets hy :)
  | @remove id o _ _ =>
    have hdiscard : (s.graph.discard id o).Grounded w s.fresh.index :=
      Graph.Grounded.of_points h fun x y hxy => Graph.points_of_discard hxy
    exact hdiscard.touch id
  | rebind hrebound => exact hrebound.grounded hs h
  | replace _ hf hrebinds _ => exact h.rebinds hs hf hrebinds nofun
  | @value id v v' value changed _ hv hset =>
    -- a variable keeps its link when it is given a value
    have hgrounded : (s.graph.setObject id (.var v')).Grounded w s.fresh.index := by
      refine Graph.Grounded.revise h hv [] [] fun y hy => .inl ?_
      cases w with
      | dependency => cases hy
      | link =>
        show y ∈ v.link.toList
        exact Variable.link_of_setValue hset ▸ hy
    cases changed with
    | true => exact hgrounded.touch id
    | false => exact Graph.Grounded.of_points hgrounded fun _ _ hxy => hxy
  | @renew f name value freed _ _ hunbound hbound =>
    have hfreed : freed.Lawful := hunbound.lawful hs
    refine hbound.grounded (lawful_valued hfreed name value) ?_
    exact (hunbound.grounded hs h).insert fun y hy => by cases Variable.mem_targets hy
  | @link id other v _ hv hother hne hlinks =>
    refine h.revise hv v.link.toList [other] fun y hy => .inr ?_
    obtain rfl : other = y := Option.some.inj (Variable.mem_targets hy)
    refine ⟨hs.bounded other hother, ?_⟩
    cases w with
    | dependency => cases hy
    | link =>
      rw [Graph.points_link, reflTransGen_iff_eq_or_transGen, ← Graph.linksTo_iff]
      exact not_or.2 ⟨hne, hlinks⟩
  | @members id c members kept gone came _ hc _ _ hmembers =>
    -- the types do not matter
    obtain ⟨c', rfl, hrefresh⟩ := exists_refresh_revise members gone came hc
    rw [hrefresh]
    refine h.revise hc gone came fun y hy => ?_
    cases w with
    | link => cases hy
    | dependency =>
      refine (hmembers y hy).imp_right fun ⟨_, hcallable, hreaches⟩ => ?_
      exact ⟨hs.bounded y hcallable.mem_ids, fun hpath => hreaches (Graph.reaches_iff.2 hpath)⟩

end Store

namespace Session

variable {σ : Session} {k : Nat}

/-- An action keeps each graph grounded to which it adds nothing. -/
theorem Action.grounded {w : Way} (hσ : σ.Lawful) {a : Action} (ha : a.Possible σ)
    (hadd : ∀ x, ¬ a.Adds k x) (h : (σ.store k).Grounded w) :
    ((a.perform σ).store k).Grounded w := by
  obtain hgraph | ⟨op, -, heffect⟩ := Action.exists_effect hσ hadd
  · -- what is done to another graph may hand out identifiers
    exact h.idle hgraph (fresh_le_perform hσ ha)
  · exact heffect.grounded (hσ.store k) h

/-- **Every graph stays grounded**, in both ways, as long as nothing is added to it. -/
theorem ReachableBy.grounded (h : ReachableBy (AddsNothing k) σ) (w : Way) :
    (σ.store k).Grounded w := by
  induction h with
  | empty => exact Graph.grounded_empty
  | act h a ha hrule ih => exact Action.grounded h.reachable.lawful ha hrule ih

end Session

end ShaderLink
