import ShaderLink.Proofs.Store.Failure
import ShaderLink.Proofs.Store.Generation
import ShaderLink.Proofs.Store.Replacement

/-!
# Edits of the members of chains that fail

An edit of the members of a chain fails in two ways. It is **refused** if there is no such chain,
if the member that comes cannot be called or depends on the chain, or if there is no member at the
position (`MemberEdit.Refused`); then the graph stays as it was. Or the edit is **made**, and then
the types of the chain cannot be derived, because its first or its last member is gone or cannot be
called. What is left then is what a successful edit leaves, except that the chain is marked stale
and has the signature that it had (`Graph.LeftStale`).

Every edit of members ends in `Store.setMembers`, so `Store.failsAs_setMembers` is about all of them.
The touch that passes the change on may come back to the chain, and does not repair it: whether an
object can be called stays the same through a touch, so the types cannot be derived then either
(`Graph.Stuck.touch`).
-/

namespace ShaderLink

namespace Graph

variable {g g' : Graph} {id x y : ObjectId} {c : Chain} {members removed added kept : List ObjectId}
  {extra : ObjectId → ObjectId → Nat} {e : LinkError}

/-! ### Types that cannot be derived -/

/-- Types cannot be derived if the first member cannot be called, or else the last. -/
theorem deriveTypes_eq_error_iff : g.deriveTypes members = .error e ↔
    ∃ first last, members.head? = some first ∧ members.getLast? = some last ∧
      (g.callable first = .error e ∨
        ∃ s, g.callable first = .ok s ∧ g.callable last = .error e) := by
  unfold deriveTypes
  cases members.head? with
  | none => simp
  | some first =>
    cases members.getLast? with
    | none => simp
    | some last =>
      cases hs : g.callable first with
      | error e' => simp [hs]
      | ok s => cases ht : g.callable last <;> simp [hs, ht]

/-- Whether an object can be called is the same after chains are retyped. -/
theorem Retyping.callable {up : ObjectId → Nat} {p : ObjectId → Prop} (h : Retyping up p g g')
    (x : ObjectId) : (∃ s, g.callable x = .ok s ∧ ∃ s', g'.callable x = .ok s') ∨
      ∃ e, g.callable x = .error e ∧ g'.callable x = .error e := by
  cases hx : g.nodes[x]? with
  | none =>
    refine .inr ⟨.unknownObject x, ?_, ?_⟩
    · simp [Graph.callable, get, find?_eq_none_iff.2 hx]
    · simp [Graph.callable, get, find?_eq_none_iff.2 (h.absent x hx)]
  | some n =>
    obtain ⟨o, r⟩ := n
    obtain ⟨o', ho', hr, -⟩ := h.present x _ hx
    have hg : g.get x = .ok o := get_eq_ok_iff.2 (find?_of_node hx)
    have hg' : g'.get x = .ok o' := get_eq_ok_iff.2 (find?_of_node ho')
    unfold Graph.callable
    rw [hg, hg']
    -- a chain has a signature whatever its types are, and the rest is the same object
    cases hr with
    | chain c arguments result stale => exact .inl ⟨_, rfl, _, rfl⟩
    | same =>
      cases hs : o.signature? with
      | some s => exact .inl ⟨s, by simp [hs], s, by simp [hs]⟩
      | none => exact .inr ⟨.notAFunction x, by simp [hs], by simp [hs]⟩

/-- So types that cannot be derived still cannot, for the same reason. -/
theorem Retyping.deriveTypes {up : ObjectId → Nat} {p : ObjectId → Prop} (h : Retyping up p g g')
    (he : g.deriveTypes members = .error e) : g'.deriveTypes members = .error e := by
  have herror : ∀ x, g.callable x = .error e → g'.callable x = .error e := by
    intro x hx
    obtain ⟨s, hs, -⟩ | ⟨e', he, he'⟩ := h.callable x
    · rw [hs] at hx
      cases hx
    · rwa [he', ← he]
  obtain ⟨first, last, hfirst, hlast, hs | ⟨s, hs, ht⟩⟩ := deriveTypes_eq_error_iff.1 he
  · exact deriveTypes_eq_error_iff.2 ⟨first, last, hfirst, hlast, .inl (herror first hs)⟩
  · -- the first member can still be called, so the last is asked for, and refused as before
    obtain ⟨-, -, s', hs'⟩ | ⟨e', he', -⟩ := h.callable first
    · exact deriveTypes_eq_error_iff.2 ⟨first, last, hfirst, hlast, .inr ⟨s', hs', herror last ht⟩⟩
    · rw [hs] at he'
      cases he'

/-- A chain that is marked stale, and has to be: its types cannot be derived. -/
structure Stuck (g : Graph) (id : ObjectId) (c : Chain) : Prop where
  chain : g.find? id = some (.chain c)
  stale : c.stale = true
  types : ∃ e, g.deriveTypes c.members = .error e

theorem Stuck.rederive_eq (h : g.Stuck id c) : g.rederive c = c := by
  obtain ⟨e, he⟩ := h.types
  rw [rederive, he, ← h.stale]

theorem Stuck.retyping {up : ObjectId → Nat} {p : ObjectId → Prop} (h : g.Stuck id c)
    (hr : Retyping up p g g') (hchain : g'.find? id = some (.chain c)) : g'.Stuck id c where
  chain := hchain
  stale := h.stale
  types := h.types.imp fun _ he => hr.deriveTypes he

theorem Stuck.bump (h : g.Stuck id c) (x : ObjectId) : (g.bump x).Stuck id c :=
  h.retyping (retyping_bump g x) (by rw [find?_bump, h.chain])

theorem Stuck.refresh (h : g.Stuck id c) (x : ObjectId) : (g.refresh x).2.Stuck id c := by
  refine h.retyping (retyping_refresh g x) ?_
  by_cases hx : x = id
  · -- the chain is refreshed itself, to what it is
    subst hx
    rw [refresh_of_chain h.chain, h.rederive_eq, find?_setObject_self h.chain]
  · obtain hsame | ⟨c₁, c₂, -, -, hset⟩ := refresh_eq g x
    · rw [hsame, h.chain]
    · rw [hset, find?_setObject_of_ne hx, h.chain]

/-- **A touch repairs no chain whose types cannot be derived.** -/
theorem Stuck.touch (h : g.Stuck id c) (x : ObjectId) : (g.touch x).Stuck id c := by
  have hadvance : g.advance.Stuck id c := ⟨h.chain, h.stale, h.types⟩
  unfold Graph.touch
  refine List.foldlRecOn (motive := fun g : Graph => g.Stuck id c) _ _ hadvance fun g₁ h₁ y _ => ?_
  -- each round raises one object and refreshes the chains that refer to it
  exact List.foldlRecOn (motive := fun g : Graph => g.Stuck id c) _ _ (h₁.bump y)
    fun g₂ h₂ z _ => h₂.refresh z

/-! ### Members that are left with a stale chain -/

/-- **What an edit of members leaves that is made and fails.** The chain has the other members, is
stale and keeps its signature. The record of references follows the members. The generation and the
revisions are those after a successful edit: everything that a change of the chain shows in is
raised. Nothing but types of chains differs otherwise. -/
structure LeftStale (g g' : Graph) (id : ObjectId) (c : Chain) (members : List ObjectId) :
    Prop where
  chain : g'.find? id = some (.chain { c with members, stale := true })
  referrers : ∀ x y, g'.referrers.count x y + (if id = y then c.members.count x else 0) =
    g.referrers.count x y + if id = y then members.count x else 0
  generation : g'.generation = g.generation + 1
  absent : ∀ x : ObjectId, g.nodes[x]? = none → g'.nodes[x]? = none
  present : ∀ (x : ObjectId) (n : Node), g.nodes[x]? = some n → ∃ o',
    g'.nodes[x]? = some ⟨o', n.revision + if x ∈ g'.affected id then 1 else 0⟩ ∧
      (id ≠ x → n.object.Retyped o')

theorem affected_touch : (g.touch id).affected = g.affected :=
  (retyping_touch g id).affected_eq (g := g.advance)

theorem getElem?_touch_revise (hx : g.nodes[x]? = none) (o : Object) :
    ((g.revise id o removed added).touch id).nodes[x]? = none := by
  refine (retyping_touch _ id).absent x ?_
  rw [nodes_advance, getElem?_revise, hx]
  split <;> rfl

theorem underivable_of_deriveTypes (h : g.deriveTypes members = .error e) :
    ∃ x, (members.head? = some x ∨ members.getLast? = some x) ∧ g.callable x = .error e := by
  obtain ⟨first, last, hfirst, hlast, hs | ⟨-, -, ht⟩⟩ := deriveTypes_eq_error_iff.1 h
  · exact ⟨first, .inl hfirst, hs⟩
  · exact ⟨last, .inr hlast, ht⟩

/-- What types can be derived does not depend on the members of a chain, only on its signature. -/
theorem deriveTypes_rechain (c' : Chain) (hc : g.find? id = some (.chain c))
    (hsignature : c'.signature = c.signature) (l : List ObjectId) :
    (g.revise id (.chain c') removed added).deriveTypes l = g.deriveTypes l := by
  have hcallable : (g.revise id (.chain c') removed added).callable = g.callable := by
    funext x
    unfold Graph.callable get
    by_cases hx : id = x
    · subst hx
      rw [find?_revise_self hc, hc]
      simp [Object.signature?, hsignature]
    · rw [find?_revise_of_ne hx]
  rw [Graph.deriveTypes, Graph.deriveTypes, hcallable]

/-- A chain gets other members from which no types can be derived. -/
theorem leftStale_revise (hg : g.ExactUpTo extra) (hc : g.find? id = some (.chain c))
    (hold : c.members.Perm (kept ++ removed)) (hnow : members.Perm (kept ++ added))
    (he : g.deriveTypes members = .error e) :
    g.LeftStale ((g.revise id (.chain { c with members, stale := true }) removed added).touch id) id
      c members where
  chain := by
    -- no types can be derived before the touch, so none are derived by it
    have htypes : (g.revise id (.chain { c with members, stale := true }) removed added).deriveTypes
        members = .error e := by
      rw [deriveTypes_rechain { c with members, stale := true } hc rfl, he]
    have hstuck : (g.revise id (.chain { c with members, stale := true }) removed added).Stuck id
        { c with members, stale := true } := ⟨find?_revise_self hc, rfl, e, htypes⟩
    exact (hstuck.touch id).chain
  referrers := fun x y => by
    rw [referrers_touch, count_revise]
    by_cases hy : id = y
    · -- what is removed was recorded, so the subtraction does not stop at zero
      subst hy
      rw [if_pos rfl, if_pos rfl, if_pos rfl, if_pos rfl, hg x id, mentions_of_find? hc,
        Object.references, hold.count_eq, hnow.count_eq, List.count_append, List.count_append]
      omega
    · rw [if_neg hy, if_neg hy, if_neg hy, if_neg hy, Nat.sub_zero]
  generation := by rw [generation_touch, generation_revise]
  absent := fun x hx => getElem?_touch_revise hx _
  present := fun x n hx => by
    -- the revision is as before until the touch raises it
    have hnode : (g.revise id (.chain { c with members, stale := true }) removed added).nodes[x]? =
        some ⟨if id = x then .chain { c with members, stale := true } else n.object,
          n.revision⟩ := by
      rw [getElem?_revise, hx]
      split <;> rfl
    obtain ⟨o', ho', hr, -⟩ := (retyping_touch _ id).present x _ hnode
    rw [affected_touch]
    refine ⟨o', ho', fun hne => ?_⟩
    rwa [if_neg hne] at hr

end Graph

/-! ### Refused, or made -/

/-- **Why an edit of members is refused**: there is no such chain, the member that comes cannot be
called or would be a member of itself, or there is none at the position. -/
inductive MemberEdit.Refused (r : MemberEdit) (g : Graph) : LinkError → Prop where
  | chain {e : LinkError} (h : g.getChain r.chain = .error e) : Refused r g e
  | member {m : ObjectId} {e : LinkError} (hm : r.member? = some m) (h : g.callable m = .error e) :
      Refused r g e
  | cyclic {m : ObjectId} (hm : r.member? = some m) (h : m = r.chain ∨ g.reaches m r.chain) :
      Refused r g (.cyclicDependency r.chain)
  | position {c : Chain} {e : LinkError} (hc : g.find? r.chain = some (.chain c))
      (h : r.apply c.members = .error e) : Refused r g e

/-- **An edit of members that is made and fails**: the types of the chain cannot be derived from
the other members, because the first or the last of them cannot be called, and the chain is left
stale. -/
def MemberEdit.Made (r : MemberEdit) (g g' : Graph) (e : LinkError) : Prop :=
  ∃ c members, g.find? r.chain = some (.chain c) ∧ r.apply c.members = .ok members ∧
    (∃ x, (members.head? = some x ∨ members.getLast? = some x) ∧ g.callable x = .error e) ∧
    g.LeftStale g' r.chain c members

namespace Store

variable {α β : Type} {s t : Store} {r : MemberEdit} {c : Chain} {e : LinkError}
  {members removed added : List ObjectId} {extra : ObjectId → ObjectId → Nat}

/-- The failures of an edit of members: it is refused, or made. -/
abbrev FailsAs (s : Store) (r : MemberEdit) (x : Edit α) : Prop :=
  OnError (fun e t => t.graph = s.graph ∧ r.Refused s.graph e ∨ r.Made s.graph t.graph e) s x

theorem FailsAs.refused_or_made {x : Edit α} (h : s.FailsAs r x) (he : failure? x s = some e) :
    (stateAfter x s).graph = s.graph ∧ r.Refused s.graph e ∨
      r.Made s.graph (stateAfter x s).graph e :=
  h.of_failure? he

theorem run_setMembers {id : ObjectId} : (setMembers id c members removed added).run s =
    let refreshed := (s.graph.revise id (.chain { c with members }) removed added).refresh id
    (MonadExcept.ofExcept refreshed.1 : Edit Unit).run
      { s with graph := refreshed.2.touch id } := rfl

/-- Giving a chain other members fails only by their types, and leaves the chain stale. -/
theorem failsAs_setMembers (kept : List ObjectId) (hg : s.graph.ExactUpTo extra)
    (hc : s.graph.find? r.chain = some (.chain c)) (happly : r.apply c.members = .ok members)
    (hold : c.members.Perm (kept ++ removed)) (hnow : members.Perm (kept ++ added)) :
    s.FailsAs r (setMembers r.chain c members removed added) := by
  intro e t he
  -- the types are derived in the graph that has the other members already
  rw [run_setMembers, Graph.refresh, Graph.getChain_eq_ok_iff.2 (Graph.find?_revise_self hc)] at he
  dsimp only at he
  rw [Graph.deriveTypes_rechain { c with members } hc rfl] at he
  cases htypes : s.graph.deriveTypes members with
  | ok types =>
    rw [htypes] at he
    cases he
  | error e' =>
    rw [htypes, Graph.setObject_revise] at he
    cases he
    exact .inr ⟨c, members, hc, happly, Graph.underivable_of_deriveTypes htypes,
      Graph.leftStale_revise hg hc hold hnow htypes⟩

/-- A member is refused that depends on the chain, or is the chain. -/
theorem failsAs_checkAcyclic {m : ObjectId} {k : Unit → Edit β} (hm : r.member? = some m)
    (h : s.FailsAs r (k ())) : s.FailsAs r (checkAcyclic r.chain m >>= k) := by
  intro e t he
  rw [EStateM.run_bind, run_checkAcyclic] at he
  by_cases hcyclic : m = r.chain || s.graph.reaches m r.chain
  · rw [if_pos hcyclic] at he
    cases he
    rw [Bool.or_eq_true, decide_eq_true_iff] at hcyclic
    exact .inl ⟨rfl, .cyclic hm hcyclic⟩
  · rw [if_neg hcyclic] at he
    exact h e t he

/-! ### The edits -/

/-- The chain is looked up. -/
theorem failsAs_getChain {k : Chain → Edit β}
    (h : ∀ c, s.graph.find? r.chain = some (.chain c) → s.FailsAs r (k c)) :
    s.FailsAs r (ask (·.getChain r.chain) >>= k) :=
  onError_ask (fun _ he => .inl ⟨rfl, .chain he⟩) fun c hc => h c (Graph.getChain_eq_ok_iff.1 hc)

/-- So is the member that comes. -/
theorem failsAs_callable {m : ObjectId} {k : Signature → Edit β} (hm : r.member? = some m)
    (h : ∀ signature, s.FailsAs r (k signature)) : s.FailsAs r (ask (·.callable m) >>= k) :=
  onError_ask (fun _ he => .inl ⟨rfl, .member hm he⟩) fun signature _ => h signature

/-- A member is put in front of the one at a position. -/
theorem failsAs_insertMember (hg : s.graph.ExactUpTo extra) {index : Nat} {m : ObjectId}
    (hm : r.member? = some m) (happly : ∀ c, s.graph.find? r.chain = some (.chain c) →
      r.apply c.members = .ok (c.members.take index ++ m :: c.members.drop index)) :
    s.FailsAs r (insertMember r.chain index m) := by
  refine failsAs_getChain fun c hc => failsAs_callable hm fun _ => failsAs_checkAcyclic hm ?_
  have happly := happly c hc
  -- a position behind the last member is the one at the end
  rw [List.take_eq_take_min, List.drop_eq_drop_min] at happly
  refine failsAs_setMembers c.members hg hc happly ?_ ?_
  · rw [List.append_nil]
  · refine List.perm_middle.trans ?_
    rw [List.take_append_drop]
    exact (List.perm_append_singleton m _).symm

/-- A member is put at the end. -/
theorem failsAs_append (hg : s.graph.ExactUpTo extra) {m : ObjectId} (hm : r.member? = some m)
    (happly : ∀ l, r.apply l = .ok (l ++ [m])) : s.FailsAs r (append r.chain m) := by
  refine failsAs_getChain fun c hc => failsAs_insertMember hg hm fun c' hc' => ?_
  -- the chain that is looked up again is the same
  obtain rfl : c = c' := by
    rw [hc] at hc'
    exact Object.chain.inj (Option.some.inj hc')
  rw [happly, List.take_length, List.drop_length]

/-- A member is put at the front. -/
theorem failsAs_prepend (hg : s.graph.ExactUpTo extra) {m : ObjectId} (hm : r.member? = some m)
    (happly : ∀ l, r.apply l = .ok (m :: l)) : s.FailsAs r (prepend r.chain m) := by
  have hinsert : s.FailsAs r (insertMember r.chain 0 m) :=
    failsAs_insertMember hg hm fun c _ => happly c.members
  exact hinsert

/-- A member is put in the place of another. -/
theorem failsAs_setMember (hg : s.graph.ExactUpTo extra) {index : Nat} {m : ObjectId}
    (hm : r.member? = some m) (happly : ∀ l, r.apply l =
      if index < l.length then .ok (l.set index m) else .error (.memberOutOfRange r.chain index)) :
    s.FailsAs r (setMember r.chain index m) := by
  refine failsAs_callable hm fun _ => failsAs_checkAcyclic hm (failsAs_getChain fun c hc => ?_)
  have happly := happly c.members
  cases hprevious : c.members[index]? with
  | none =>
    rw [if_neg (Nat.not_lt.2 (List.getElem?_eq_none_iff.1 hprevious))] at happly
    exact onError_throw (.inl ⟨rfl, .position hc happly⟩)
  | some previous =>
    obtain ⟨hlt, rfl⟩ := List.getElem?_eq_some_iff.1 hprevious
    rw [if_pos hlt] at happly
    refine (failsAs_setMembers (c.members.eraseIdx index) hg hc happly ?_ ?_).bind_ok
      fun _ t _ => ⟨_, t, rfl⟩
    · exact (List.getElem_cons_eraseIdx_perm hlt).symm.trans
        (List.perm_append_singleton c.members[index] _).symm
    · exact (List.set_perm_cons_eraseIdx hlt m).trans (List.perm_append_singleton m _).symm

/-- A member is taken away, if it is there. -/
theorem failsAs_removeMember (hg : s.graph.ExactUpTo extra) {m : ObjectId}
    (happly : ∀ l, r.apply l = .ok (l.erase m)) : s.FailsAs r (removeMember r.chain m) := by
  refine failsAs_getChain fun c hc => ?_
  by_cases hm : m ∈ c.members
  · rw [if_pos hm]
    refine (failsAs_setMembers (c.members.erase m) hg hc (happly _) ?_ ?_).bind_ok
      fun _ t _ => ⟨_, t, rfl⟩
    · exact (List.perm_cons_erase hm).trans (List.perm_append_singleton m _).symm
    · rw [List.append_nil]
  · rw [if_neg hm]
    exact onError_of_ok rfl

end Store

/-- **An edit of members that fails** is refused, or made. -/
theorem Operation.refused_or_made {s : Store} {op : Operation} {r : MemberEdit} {e : LinkError}
    {extra : ObjectId → ObjectId → Nat} (hg : s.graph.ExactUpTo extra)
    (hr : op.memberEdit? = some r) (he : op.error? s = some e) :
    (op.perform s).graph = s.graph ∧ r.Refused s.graph e ∨
      r.Made s.graph (op.perform s).graph e := by
  cases op with
  | append c m =>
    cases hr
    refine Store.FailsAs.refused_or_made (x := Store.append c m) ?_ he
    exact Store.failsAs_append hg rfl fun _ => rfl
  | prepend c m =>
    cases hr
    refine Store.FailsAs.refused_or_made (x := Store.prepend c m) ?_ he
    exact Store.failsAs_prepend hg rfl fun _ => rfl
  | insertMember c index m =>
    cases hr
    refine Store.FailsAs.refused_or_made (x := Store.insertMember c index m) ?_ he
    exact Store.failsAs_insertMember hg rfl fun _ _ => rfl
  | setMember c index m =>
    cases hr
    refine Store.FailsAs.refused_or_made (x := Store.setMember c index m) ?_ he
    exact Store.failsAs_setMember hg rfl fun _ => rfl
  | removeMember c m =>
    cases hr
    refine Store.FailsAs.refused_or_made (x := Store.removeMember c m) ?_ he
    exact Store.failsAs_removeMember hg fun _ => rfl
  | _ => cases hr

namespace Session

variable {σ : Session} {k : Nat} {op : Operation} {r : MemberEdit} {e : LinkError}

/-- **Edits of the members of a chain are refused, or made.** If one fails, then either it is
refused and the graph is as it was: there is no such chain, the member that comes cannot be called
or depends on the chain, or no member is at the position. Or the first or the last of the other
members cannot be called; then the chain has these members, is stale and has the signature that it
had, and the record of references, the generation and the revisions are those after a successful
edit. -/
theorem member_edits_refused_or_made (h : σ.Reachable) (hr : op.memberEdit? = some r)
    (he : (Action.edit k op).error? σ = some e) :
    ((Action.edit k op).perform σ).graphs k = σ.graphs k ∧ r.Refused (σ.graphs k) e ∨
      r.Made (σ.graphs k) (((Action.edit k op).perform σ).graphs k) e := by
  obtain ⟨extra, hexact⟩ := h.exists_exactUpTo k
  have hgraph : ((Action.edit k op).perform σ).graphs k = (op.perform (σ.store k)).graph :=
    graphs_setStore
  rw [hgraph]
  exact Operation.refused_or_made (s := σ.store k) hexact hr he

/-- A session in which the only member of a chain is gone, and the chain is a member of another. -/
def innermostSession : Session :=
  empty.edited 0 [.function "float $f(float a) { return a; }",
    .function "float $g(float a) { return a; }", .chain "inner" true [⟨1⟩],
    .chain "outer" true [⟨3⟩], .remove ⟨1⟩]

/-- A function is put in front of the member that is gone. That is made and fails, as the last member
cannot be called, and the chain that the inner one is a member of is raised with it. The outer chain
cannot be made a member of the inner one, and nothing happens. -/
theorem member_edits_refused_or_made_innermost : innermostSession.Reachable ∧
    (Action.edit 0 (.prepend ⟨3⟩ ⟨2⟩)).error? innermostSession = some (.unknownObject ⟨1⟩) ∧
    MemberEdit.Made ⟨⟨3⟩, some ⟨2⟩, fun l => .ok (⟨2⟩ :: l)⟩ (innermostSession.graphs 0)
      (((Action.edit 0 (.prepend ⟨3⟩ ⟨2⟩)).perform innermostSession).graphs 0)
      (.unknownObject ⟨1⟩) ∧
    (((Action.edit 0 (.prepend ⟨3⟩ ⟨2⟩)).perform innermostSession).graphs 0).affected ⟨3⟩ =
      [⟨3⟩, ⟨4⟩] ∧
    (Action.edit 0 (.append ⟨3⟩ ⟨4⟩)).error? innermostSession = some (.cyclicDependency ⟨3⟩) ∧
    ((Action.edit 0 (.append ⟨3⟩ ⟨4⟩)).perform innermostSession).graphs 0 =
      innermostSession.graphs 0 := by
  have hany : ReachableBy (fun _ _ => True) innermostSession :=
    ReachableBy.empty.edited fun _ _ _ => trivial
  have hprepend : (Action.edit 0 (.prepend ⟨3⟩ ⟨2⟩)).error? innermostSession =
      some (.unknownObject ⟨1⟩) := by decide +kernel
  have happend : (Action.edit 0 (.append ⟨3⟩ ⟨4⟩)).error? innermostSession =
      some (.cyclicDependency ⟨3⟩) := by decide +kernel
  refine ⟨hany.reachable, hprepend, ?_, by decide +kernel, happend, ?_⟩
  · refine (member_edits_refused_or_made hany.reachable rfl hprepend).resolve_left ?_
    rintro ⟨hsame, -⟩
    -- the chain has another member than before
    have hmembers : (((Action.edit 0 (.prepend ⟨3⟩ ⟨2⟩)).perform innermostSession).graphs
        0).membersOf ⟨3⟩ ≠ (innermostSession.graphs 0).membersOf ⟨3⟩ := by decide +kernel
    exact hmembers (by rw [hsame])
  · obtain ⟨hsame, -⟩ | ⟨c, members, -, -, -, hstale⟩ :=
      member_edits_refused_or_made hany.reachable rfl happend
    · exact hsame
    · -- the generation is what it was
      have hgeneration := hstale.generation
      exact absurd hgeneration (by decide +kernel)

/-- Something is appended to a chain whose only member is gone. That fails, and the chain has the
member nevertheless; its revision and the generation are raised, and the member is referred to. -/
theorem failed_append_leaves_member : memberlessSession.Reachable ∧
    (Action.edit 0 (.append ⟨3⟩ ⟨2⟩)).error? memberlessSession = some (.unknownObject ⟨1⟩) ∧
    let g := memberlessSession.graphs 0
    let g' := ((Action.edit 0 (.append ⟨3⟩ ⟨2⟩)).perform memberlessSession).graphs 0
    g.membersOf ⟨3⟩ = [⟨1⟩] ∧ g'.membersOf ⟨3⟩ = [⟨1⟩, ⟨2⟩] ∧
      g.revision ⟨3⟩ = .ok 1 ∧ g'.revision ⟨3⟩ = .ok 2 ∧
      g.referrersOf ⟨2⟩ = [] ∧ g'.referrersOf ⟨2⟩ = [⟨3⟩] ∧
      g.generation = 4 ∧ g'.generation = 5 := by
  have hany : ReachableBy (fun _ _ => True) memberlessSession :=
    ReachableBy.empty.edited fun _ _ _ => trivial
  exact ⟨hany.reachable, by decide +kernel⟩

end Session

end ShaderLink
