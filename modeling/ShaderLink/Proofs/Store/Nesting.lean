import ShaderLink.Proofs.Store.Acyclic
import ShaderLink.Proofs.Store.Referrers
import ShaderLink.Proofs.Store.Roles

/-!
# Chains that are in one chain only

What it takes to tangle chains is a chain that is a member of two others. Where nesting is not
shared (`Graph.Unshared`), what a change of a chain shows in is the one chain around it, the one
chain around that, and so on, and what cannot be called. The walk cannot come to a chain but from
the one member that the change shows in, so it is in order (`Graph.Unshared.orderly`).

So nobody has to look at walks in a session in which nesting is never shared: no edit of it tangles
chains (`Session.ReachableBy.untangled`), and chains have the types of their members
(`Session.typedBy_of_unshared`). Functions may be members of as many chains as one likes.
-/

namespace ShaderLink

open Relation

namespace Graph

/-- A chain that is there is a member of another. -/
def Nested (g : Graph) (x y : ObjectId) : Prop :=
  (∃ c, g.find? x = some (.chain c)) ∧ x ∈ g.membersOf y

/-- **Nesting is not shared**: no chain is a member of two chains. -/
def Unshared (g : Graph) : Prop := Relator.RightUnique g.Nested

variable {g : Graph} {roles : ObjectId → Role} {n m : Nat} {id x x' y : ObjectId}

/-- Whether nesting is shared shows in the members of the chains that are there. -/
theorem unshared_iff : g.Unshared ↔ ∀ y ∈ g.ids, ∀ z ∈ g.ids, ∀ x ∈ g.membersOf y,
    x ∈ g.membersOf z → (g.getChain x).toOption.isSome = true → y = z := by
  constructor
  · intro h y _ z _ x hxy hxz hchain
    obtain ⟨c, hc⟩ := Option.isSome_iff_exists.1 hchain
    have hc := getChain_eq_ok_iff.1 (Except.toOption_eq_some_iff.1 hc)
    exact h ⟨⟨c, hc⟩, hxy⟩ ⟨⟨c, hc⟩, hxz⟩
  · rintro h x y z ⟨⟨c, hc⟩, hxy⟩ ⟨-, hxz⟩
    obtain ⟨_, hy, -⟩ := exists_chain_of_mem hxy
    obtain ⟨_, hz, -⟩ := exists_chain_of_mem hxz
    have hchain : (g.getChain x).toOption = some c :=
      Except.toOption_eq_some_iff.2 (getChain_eq_ok_iff.2 hc)
    exact h y (mem_ids_of_find? hy) z (mem_ids_of_find? hz) x hxy hxz (hchain ▸ rfl)

instance (g : Graph) : Decidable g.Unshared := decidable_of_iff _ unshared_iff.symm

theorem Nested.points (h : g.Nested x y) : g.Points .dependency y x := by
  obtain ⟨c, hc, hxc⟩ := exists_chain_of_mem h.2
  exact ⟨.chain c, hc, hxc⟩

/-- Nothing is nested in what is nested in it. -/
theorem Grounded.not_nested (h : g.Grounded .dependency m) (hpath : ReflTransGen g.Nested x y) :
    ¬ g.Nested y x := by
  intro hyx
  have hcircle : TransGen g.Nested x x := .tail' hpath hyx
  exact h.irreflexive x (TransGen.mono (fun _ _ => Nested.points) _ _ hcircle.swap)

/-- Of two chains in the same chain neither is around the other. -/
theorem Unshared.eq_of_path (h : g.Unshared) (hg : g.Grounded .dependency m) (hx : g.Nested x y)
    (hx' : g.Nested x' y) (hpath : ReflTransGen g.Nested x x') : x = x' := by
  obtain rfl | ⟨z, hxz, hpath⟩ := hpath.cases_head
  · rfl
  · obtain rfl := h hx hxz
    exact absurd hx' (hg.not_nested hpath)

/-- **What a change of a chain shows in** is a chain around it, or cannot be called. -/
theorem InRoles.nested_of_affected (h : g.InRoles roles n) (hexact : g.Exact)
    (hid : ∃ c, g.find? id = some (.chain c)) (hx : x ∈ g.affected id)
    (hcallable : (roles x).IsCallable) :
    (∃ c, g.find? x = some (.chain c)) ∧ ReflTransGen g.Nested id x := by
  revert hcallable
  refine (Traversal.reachable_of_mem_preorder hx).induction (p := fun x => (roles x).IsCallable →
    (∃ c, g.find? x = some (.chain c)) ∧ ReflTransGen g.Nested id x) (fun r hr _ => ?_)
    fun a ih b hb hcallable => ?_
  · obtain rfl := List.mem_singleton.1 hr
    exact ⟨hid, .refl⟩
  · have hb := List.mem_reverse.1 hb
    obtain ⟨⟨c, hc⟩, hcallable⟩ := h.of_mem_carriers hb hcallable
    obtain ⟨ha, hpath⟩ := ih hcallable
    have hmember := (hexact.mem_membersOf_iff hc).2 (mem_carriers_iff.1 hb).1
    exact ⟨⟨c, hc⟩, hpath.tail ⟨ha, hmember⟩⟩

/-- **Where nesting is not shared, walks are in order.** -/
theorem Unshared.orderly (h : g.Unshared) (hexact : g.Exact) (hg : g.Grounded .dependency m)
    (hroles : g.InRoles roles n) (hid : ∃ c, g.find? id = some (.chain c)) : g.Orderly id := by
  have hnested : ∀ y, ∀ x ∈ g.membersOf y, x ∈ g.affected id →
      g.Nested x y ∧ ReflTransGen g.Nested id x := by
    intro y x hxy hx
    obtain ⟨c, hc, hxc⟩ := exists_chain_of_mem hxy
    have hcallable := (hroles.object y _ hc).called x hxc
    obtain ⟨hchain, hpath⟩ := hroles.nested_of_affected hexact hid hx hcallable
    exact ⟨⟨hchain, hxy⟩, hpath⟩
  refine orderly_of_unshared hexact (fun x hxy hx => ?_) fun y x hxy x' hxy' hx hx' => ?_
  · obtain ⟨hnested, hpath⟩ := hnested id x hxy hx
    exact hg.not_nested hpath hnested
  · obtain ⟨hxy, hpath⟩ := hnested y x hxy hx
    obtain ⟨hxy', hpath'⟩ := hnested y x' hxy' hx'
    -- both are around the chain that changes, so one of them is around the other
    obtain hpath | hpath := ReflTransGen.total_of_right_unique h hpath hpath'
    · exact h.eq_of_path hg hxy hxy' hpath
    · exact (h.eq_of_path hg hxy' hxy hpath).symm

end Graph

/-- A chain stays one in every edit that does not remove it. -/
theorem Operation.exists_chain {s : Store} {op : Operation} {roles : ObjectId → Role}
    {id : ObjectId} {c : Chain} (hs : s.Lawful) (hroles : s.InRoles roles)
    (hremoves : ¬ op.Removes id) (hc : s.graph.find? id = some (.chain c)) :
    ∃ c', (op.perform s).graph.find? id = some (.chain c') := by
  have hmove := op.move hs
  obtain ⟨roles', hroles'⟩ := hmove.exists_extends hroles
  obtain ⟨o, ho⟩ := Graph.mem_ids_iff.1 (hmove.mem_ids hremoves (Graph.mem_ids_of_find? hc))
  have hbefore := hroles.object id _ hc
  have hrole : o.role = .chain := by
    rw [← (hroles'.inRoles.object id o ho).role, hroles'.roles id hbefore.lt, hbefore.role]
    rfl
  cases o with
  | chain c' => exact ⟨c', ho⟩
  | _ => cases hrole

namespace Session

variable {σ : Session} {k : Nat} {y : ObjectId} {c : Chain}

/-- The rule that nothing is added to a graph and that nesting is not shared in it afterwards. -/
def KeepsUnshared (k : Nat) (σ : Session) (a : Action) : Prop :=
  AddsNothing k σ a ∧ ((a.perform σ).graphs k).Unshared

/-- **Unshared nesting is never tangled.** -/
theorem ReachableBy.untangled (h : ReachableBy (KeepsUnshared k) σ) :
    ReachableBy (Untangled k) σ := by
  induction h with
  | empty => exact .empty
  | @act σ h a ha hrule ih =>
    refine ih.act a ha ⟨hrule.1, ?_⟩
    rintro ⟨op, rfl, htangles⟩
    obtain ⟨id, hop, ⟨c, hc, -⟩, hdisorder⟩ := Operation.tangles_iff.1 htangles
    have hafter : ReachableBy (AddsNothing k) ((Action.edit k op).perform σ) :=
      (h.mono fun _ _ hrule => hrule.1).act _ ha hrule.1
    have hexact := (hafter.mono fun _ _ hadds x hx => absurd hx (hadds x)).exact
    have hremoves : ¬ op.Removes id := by
      rintro rfl
      cases hop
    obtain ⟨roles, hroles⟩ := h.reachable.exists_inRoles
    obtain ⟨roles', hroles'⟩ := hafter.reachable.exists_inRoles
    have hgraph : ((Action.edit k op).perform σ).graphs k = (op.perform (σ.store k)).graph :=
      graphs_setStore
    obtain ⟨c', hc'⟩ :=
      Operation.exists_chain (h.reachable.lawful.store k) (hroles.graph k) hremoves hc
    rw [← hgraph] at hdisorder hc'
    exact hdisorder
      (hrule.2.orderly hexact (hafter.grounded .dependency) (hroles'.graph k) ⟨c', hc'⟩)

/-- **The types of chains are those of their members** in a session in which nesting is never
shared. -/
theorem typedBy_of_unshared (h : ReachableBy (KeepsUnshared k) σ)
    (hc : (σ.graphs k).find? y = some (.chain c)) (hstale : c.stale = false) :
    (σ.graphs k).TypedBy c :=
  Graph.typedBy_of_rederive (h.untangled.derived.2.types y c hc) hstale

/-- The nested chains are each in one chain only. What is tangled is a chain that is in two. -/
theorem unshared_replacedSession :
    (replacedSession.graphs 0).Unshared ∧ ¬ (tangledSession.graphs 0).Unshared := by
  decide +kernel

end Session

end ShaderLink
