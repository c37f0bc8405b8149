import ShaderLink.Proofs.Graph.Acyclic
import ShaderLink.Proofs.Store.Session

/-!
# Actions that fail

An edit is **all or nothing** if it leaves the graph as it was whenever it fails
(`Store.AllOrNothing`); an identifier that it has handed out by then is spent. This is read off the
steps of the edit. What only looks at the store can be passed over (`allOrNothing_read`), so an edit
is all or nothing if nothing that may fail comes after its first change of the graph. All edits are
made like that but two kinds:

* `assign` takes away what is bound before it makes a variable and binds that instead. The binding
  cannot be refused: the placeholder is free by then, and a new variable depends on nothing
  (`Store.exists_run_bindValued`).
* An edit that gives a chain other members changes them before it derives the types of the chain.
  Those edits are not all or nothing.

An action on a session that fails therefore leaves all graphs and all main codes as they were,
unless it edits the members of a chain (`Session.failure_keeps_graphs`).
-/

namespace ShaderLink

namespace Graph

/-- What is not a chain is as it was after a touch. -/
theorem find?_touch_of_not_chain {g : Graph} {x : ObjectId} {o : Object} (id : ObjectId)
    (ho : g.find? x = some o) (hchain : ∀ c, o ≠ .chain c) : (g.touch id).find? x = some o := by
  obtain ⟨n, hn, rfl⟩ := find?_eq_some_iff.1 ho
  obtain ⟨o', ho', hr, -⟩ := (retyping_touch g id).present x n hn
  rw [find?_of_node ho', hr.eq_of_not_chain hchain]

/-- A variable depends on nothing, so it reaches itself only. -/
theorem not_reaches_of_var {g : Graph} {x y : ObjectId} {v : Variable}
    (hv : g.find? x = some (.var v)) (hne : x ≠ y) : ¬ g.reaches x y := by
  rw [reaches_iff]
  intro hpath
  obtain heq | ⟨z, ⟨o, ho, hz⟩, -⟩ := Relation.ReflTransGen.cases_head hpath
  · exact hne heq
  · rw [hv] at ho
    cases ho
    cases hz

end Graph

namespace Store

variable {α β : Type} {s t : Store} {f : ObjectId} {placeholder : String} {snippet : Snippet}

/-- What is known of the error and of the store that an edit leaves, if it fails. -/
def OnError (post : LinkError → Store → Prop) (s : Store) (x : Edit α) : Prop :=
  ∀ e t, x.run s = .error e t → post e t

/-- **All or nothing**: an edit that fails leaves the graph as it was. -/
abbrev AllOrNothing (s : Store) (x : Edit α) : Prop := OnError (fun _ t => t.graph = s.graph) s x

/-! ### Edits, step by step -/

section

variable {post : LinkError → Store → Prop}

theorem OnError.of_failure? {x : Edit α} (h : OnError post s x) {e : LinkError}
    (he : failure? x s = some e) : post e (stateAfter x s) := by
  obtain ⟨t, ht⟩ := exists_run_of_failure? he
  rw [stateAfter_eq_of_error ht]
  exact h e t ht

theorem onError_of_ok {x : Edit α} {a : α} (h : x.run s = .ok a t) : OnError post s x := by
  intro e u he
  rw [h] at he
  cases he

theorem onError_throw {e : LinkError} (h : post e s) :
    OnError post s (throw e : Edit α) := by
  intro e' u he
  cases he
  exact h

/-- A question fails as its answer does, or the rest of the edit does. -/
theorem onError_ask {q : Graph → Except LinkError α} {k : α → Edit β}
    (herror : ∀ e, q s.graph = .error e → post e s)
    (h : ∀ a, q s.graph = .ok a → OnError post s (k a)) : OnError post s (ask q >>= k) := by
  intro e t he
  cases hq : q s.graph with
  | ok a =>
    rw [run_ask_bind hq] at he
    exact h a hq e t he
  | error e' =>
    rw [EStateM.run_bind, run_ask, hq] at he
    cases he
    exact herror e hq

/-- What comes after an edit that answers may only not fail any more. -/
theorem OnError.bind_ok {x : Edit α} {k : α → Edit β} (hx : OnError post s x)
    (h : ∀ a t, x.run s = .ok a t → ∃ b u, (k a).run t = .ok b u) : OnError post s (x >>= k) := by
  intro e u he
  obtain hfirst | ⟨a, t, ha, hrest⟩ := run_bind_eq_error_iff.1 he
  · exact hx e u hfirst
  · obtain ⟨b, u', hb⟩ := h a t ha
    rw [hb] at hrest
    cases hrest

end

/-- What leaves the store as it is can be passed over. -/
theorem allOrNothing_read {x : Edit α} {k : α → Edit β} (hx : stateAfter x s = s)
    (h : ∀ a, x.run s = .ok a s → AllOrNothing s (k a)) : AllOrNothing s (x >>= k) := by
  intro e u he
  -- whether it answers or fails, the store is the one before
  obtain hfirst | ⟨a, t, ha, hrest⟩ := run_bind_eq_error_iff.1 he
  · rw [← stateAfter_eq_of_error hfirst, hx]
  · obtain rfl : t = s := (stateAfter_eq_of_ok ha).symm.trans hx
    exact h a ha e u hrest

theorem allOrNothing_ask {q : Graph → Except LinkError α} {k : α → Edit β}
    (h : ∀ a, q s.graph = .ok a → AllOrNothing s (k a)) : AllOrNothing s (ask q >>= k) :=
  onError_ask (fun _ _ => rfl) h

theorem allOrNothing_ofExcept {x : Except LinkError α} {k : α → Edit β}
    (h : ∀ a, x = .ok a → AllOrNothing s (k a)) :
    AllOrNothing s (MonadExcept.ofExcept x >>= k) := by
  cases x with
  | ok a => exact h a rfl
  | error e => exact onError_throw rfl

/-- Handing out an identifier is no change of the graph. -/
theorem allOrNothing_allocate {k : ObjectId → Edit β}
    (h : AllOrNothing ⟨s.graph, s.fresh.next⟩ (k s.fresh)) : AllOrNothing s (allocate >>= k) := h

/-! ### Making and removing objects -/

theorem allOrNothing_create (o : Object) : AllOrNothing s (create o) := onError_of_ok rfl

theorem allOrNothing_function (code : String) : AllOrNothing s (function code) :=
  allOrNothing_ofExcept fun _ _ => allOrNothing_create _

theorem allOrNothing_functionRequiring (code : String) (requires : List ObjectId) :
    AllOrNothing s (functionRequiring code requires) := by
  refine allOrNothing_read (stateAfter_askEach requires (fun id g => g.get id) s) fun _ _ => ?_
  exact allOrNothing_ofExcept fun _ _ => allOrNothing_create _

theorem allOrNothing_declare (declaration : String) : AllOrNothing s (declare declaration) := by
  unfold declare
  split
  · exact allOrNothing_create _
  · exact onError_throw rfl

theorem allOrNothing_call (callee : ObjectId) (arguments : List ObjectId) :
    AllOrNothing s (call callee arguments) := by
  refine allOrNothing_ask fun _ _ => ?_
  refine allOrNothing_read (stateAfter_askEach arguments (fun id g => g.get id) s) fun _ _ => ?_
  exact allOrNothing_allocate (allOrNothing_ask fun _ _ => onError_of_ok rfl)

theorem allOrNothing_add (id : ObjectId) (o : Object) : AllOrNothing s (add id o) := by
  cases o with
  | chain c =>
    refine allOrNothing_read (stateAfter_askEach c.members (fun id g => g.callable id) s)
      fun _ _ => ?_
    exact allOrNothing_ask fun _ _ => onError_of_ok rfl
  | _ => exact onError_of_ok rfl

theorem allOrNothing_chain (name : String) (anonymous : Bool) (members : List ObjectId) :
    AllOrNothing s (chain name anonymous members) :=
  allOrNothing_allocate (allOrNothing_add _ _)

theorem allOrNothing_remove (id : ObjectId) : AllOrNothing s (remove id) :=
  allOrNothing_ask fun _ _ => onError_of_ok rfl

/-! ### Changing objects -/

theorem allOrNothing_bind (f : ObjectId) (placeholder : String) (object : ObjectId) :
    AllOrNothing s (bind f placeholder object) := by
  refine allOrNothing_ask fun _ _ => ?_
  refine allOrNothing_read (stateAfter_checkAcyclic f object s) fun _ _ => ?_
  refine allOrNothing_ask fun snippet _ => allOrNothing_ofExcept fun bound _ => ?_
  cases bound with
  | none => exact onError_of_ok rfl
  | some bound => exact onError_of_ok rfl

theorem allOrNothing_unbind (f : ObjectId) (placeholder : String) :
    AllOrNothing s (unbind f placeholder) := by
  refine allOrNothing_ask fun snippet _ => ?_
  dsimp only
  cases snippet.bindings[placeholder]? with
  | none => exact onError_of_ok rfl
  | some object => exact onError_of_ok rfl

theorem allOrNothing_setValue (id : ObjectId) (value : Value) :
    AllOrNothing s (setValue id value) :=
  allOrNothing_ask fun _ _ => allOrNothing_ofExcept fun _ _ => onError_of_ok rfl

theorem allOrNothing_replace (f : ObjectId) (find put : String) :
    AllOrNothing s (replace f find put) := by
  refine allOrNothing_ask fun snippet _ => ?_
  cases snippet.replace find put with
  | none => exact onError_of_ok rfl
  | some r => exact onError_of_ok rfl

theorem allOrNothing_link (id other : ObjectId) : AllOrNothing s (link id other) := by
  refine allOrNothing_ask fun _ _ => ?_
  change AllOrNothing s (if _ then _ else _)
  split
  · exact onError_throw rfl
  · exact allOrNothing_ask fun _ _ => onError_of_ok rfl

/-! ### Values at placeholders -/

/-- **A new variable can be bound** to a placeholder that is free. -/
theorem exists_run_bindValued (hs : s.Lawful) (hf : s.graph.find? f = some (.function snippet))
    (hplaceholder : placeholder ∈ snippet.placeholders)
    (hfree : snippet.bindings[placeholder]? = none) (name : String) (value : Value) :
    ∃ id t, (do
      let id ← valued name value
      bind f placeholder id
      return id : Edit ObjectId).run s = .ok id t := by
  have hne : s.fresh ≠ f := by
    rintro rfl
    rw [hs.find?_fresh] at hf
    cases hf
  let made : Store := ⟨s.graph.insert s.fresh (.var (.ofValue name value)), s.fresh.next⟩
  have hmade : made.graph.find? s.fresh = some (.var (.ofValue name value)) :=
    Graph.find?_insert_self _ _ _
  have hkept : made.graph.find? f = some (.function snippet) := by
    rw [Graph.find?_insert_of_ne hne, hf]
  -- none of the questions that come before the change is answered by an error
  have hget : made.graph.get s.fresh = .ok _ := Graph.get_eq_ok_iff.2 hmade
  have hacyclic : (checkAcyclic f s.fresh).run made = .ok () made := by
    rw [run_checkAcyclic]
    simp [hne, Graph.not_reaches_of_var hmade hne]
  have hfunction : made.graph.getFunction f = .ok snippet := Graph.getFunction_eq_ok_iff.2 hkept
  have hbind : snippet.bind placeholder s.fresh =
      .ok (some { snippet with bindings := snippet.bindings.insert placeholder s.fresh }) := by
    simp [Snippet.bind, hplaceholder, hfree]
  have hbound : ∃ t, (bind f placeholder s.fresh).run made = .ok () t := by
    unfold bind
    rw [run_ask_bind hget, EStateM.run_bind, hacyclic]
    dsimp only
    rw [run_ask_bind hfunction, hbind]
    exact ⟨_, rfl⟩
  obtain ⟨t, ht⟩ := hbound
  exact ⟨s.fresh, t, run_bind_eq_ok_iff.2 ⟨s.fresh, made, rfl,
    run_bind_eq_ok_iff.2 ⟨(), t, ht, rfl⟩⟩⟩

/-- What was bound is not bound after an `unbind`. -/
theorem find?_of_unbind {object : ObjectId} {r : Option ObjectId}
    (hf : s.graph.find? f = some (.function snippet))
    (hbound : snippet.bindings[placeholder]? = some object)
    (h : (unbind f placeholder).run s = .ok r t) :
    t.graph.find? f = some (.function (snippet.unbind placeholder)) := by
  unfold unbind at h
  rw [run_ask_bind (Graph.getFunction_eq_ok_iff.2 hf)] at h
  dsimp only at h
  rw [hbound] at h
  cases h
  have hrevised : (s.graph.revise f (.function (snippet.unbind placeholder)) [object] []).find? f =
      some (.function (snippet.unbind placeholder)) := Graph.find?_revise_self hf
  exact Graph.find?_touch_of_not_chain f hrevised nofun

theorem allOrNothing_assign (hs : s.Lawful) (f : ObjectId) (placeholder : String) (value : Value) :
    AllOrNothing s (assign f placeholder value) := by
  refine allOrNothing_ask fun snippet hsnippet => ?_
  have hf := Graph.getFunction_eq_ok_iff.1 hsnippet
  dsimp only
  split
  · next hplaceholder =>
    cases hbound : snippet.bindings[placeholder]? with
    | none =>
      obtain ⟨id, t, hrun⟩ := exists_run_bindValued hs hf hplaceholder hbound
        (nameForValue placeholder value) value
      exact onError_of_ok hrun
    | some bound =>
      -- what is taken away leaves the placeholder free
      have hunbind : AllOrNothing s (do
          let _ ← unbind f placeholder
          let id ← valued (nameForValue placeholder value) value
          bind f placeholder id
          return id) := by
        refine (allOrNothing_unbind f placeholder).bind_ok fun r t ht => ?_
        have hunbound : Rebound f s t := stateAfter_eq_of_ok ht ▸ rebound_unbind hs f placeholder
        have htl : t.Lawful := hunbound.lawful hs
        exact exists_run_bindValued htl (find?_of_unbind hf hbound ht) hplaceholder
          (by simp [Snippet.unbind]) _ _
      refine allOrNothing_ask fun o _ => ?_
      cases o with
      | var v =>
        -- a variable that is bound is given the value, and stays bound
        exact (allOrNothing_setValue bound value).bind_ok fun _ t _ => ⟨_, t, rfl⟩
      | _ => exact hunbind
  · exact onError_throw rfl

end Store

theorem StageMain.allOrNothing_assignVarying (m : StageMain) (s : Store)
    (varying expression : ObjectId) : s.AllOrNothing (m.assignVarying varying expression) := by
  refine Store.allOrNothing_ask fun v _ => ?_
  dsimp only
  split
  · exact (Store.allOrNothing_link varying expression).bind_ok fun _ t _ => ⟨_, t, rfl⟩
  · exact Store.onError_throw rfl

/-- An edit of the members of a chain: the chain, the member that comes, if one does, and the
members that it makes of those that are there. -/
structure MemberEdit where
  chain : ObjectId
  member? : Option ObjectId
  apply : List ObjectId → Except LinkError (List ObjectId)

namespace Operation

/-- The error that an edit fails with, if it does. -/
def error? : Operation → Store → Option LinkError
  | function code => failure? (Store.function code)
  | functionRequiring code requires => failure? (Store.functionRequiring code requires)
  | unassigned name => failure? (Store.unassigned name)
  | declare declaration => failure? (Store.declare declaration)
  | valued name value => failure? (Store.valued name value)
  | varying name type => failure? (Store.varying name type)
  | text code => failure? (Store.text code)
  | call callee arguments => failure? (Store.call callee arguments)
  | chain name anonymous members => failure? (Store.chain name anonymous members)
  | remove id => failure? (Store.remove id)
  | bind f placeholder object => failure? (Store.bind f placeholder object)
  | unbind f placeholder => failure? (Store.unbind f placeholder)
  | assign f placeholder value => failure? (Store.assign f placeholder value)
  | replace f find put => failure? (Store.replace f find put)
  | setValue id value => failure? (Store.setValue id value)
  | link id other => failure? (Store.link id other)
  | append c member => failure? (Store.append c member)
  | prepend c member => failure? (Store.prepend c member)
  | insertMember c index member => failure? (Store.insertMember c index member)
  | setMember c index member => failure? (Store.setMember c index member)
  | removeMember c member => failure? (Store.removeMember c member)

/-- What an edit of this kind asks for, if it edits the members of a chain. -/
def memberEdit? : Operation → Option MemberEdit
  | append c member => some ⟨c, some member, fun l => .ok (l ++ [member])⟩
  | prepend c member => some ⟨c, some member, fun l => .ok (member :: l)⟩
  | insertMember c index member =>
    some ⟨c, some member, fun l => .ok (l.take index ++ member :: l.drop index)⟩
  | setMember c index member =>
    some ⟨c, some member, fun l =>
      if index < l.length then .ok (l.set index member) else .error (.memberOutOfRange c index)⟩
  | removeMember c member => some ⟨c, none, fun l => .ok (l.erase member)⟩
  | _ => none

/-- Whether an edit gives a chain other members. -/
def EditsMembers (op : Operation) : Prop := op.memberEdit?.isSome

/-- **An edit that fails leaves the graph as it was**, unless it edits the members of a chain. -/
theorem graph_perform_of_error {s : Store} (hs : s.Lawful) {op : Operation}
    (hmembers : ¬ op.EditsMembers) {e : LinkError} (he : op.error? s = some e) :
    (op.perform s).graph = s.graph := by
  cases op with
  | function code => exact (Store.allOrNothing_function code).of_failure? he
  | functionRequiring code requires =>
    exact (Store.allOrNothing_functionRequiring code requires).of_failure? he
  | unassigned name => exact (Store.allOrNothing_create _).of_failure? he
  | declare declaration => exact (Store.allOrNothing_declare declaration).of_failure? he
  | valued name value => exact (Store.allOrNothing_create _).of_failure? he
  | varying name type => exact (Store.allOrNothing_create _).of_failure? he
  | text code => exact (Store.allOrNothing_create _).of_failure? he
  | call callee arguments => exact (Store.allOrNothing_call callee arguments).of_failure? he
  | chain name anonymous members =>
    exact (Store.allOrNothing_chain name anonymous members).of_failure? he
  | remove id => exact (Store.allOrNothing_remove id).of_failure? he
  | bind f placeholder object => exact (Store.allOrNothing_bind f placeholder object).of_failure? he
  | unbind f placeholder => exact (Store.allOrNothing_unbind f placeholder).of_failure? he
  | assign f placeholder value =>
    exact (Store.allOrNothing_assign hs f placeholder value).of_failure? he
  | replace f find put => exact (Store.allOrNothing_replace f find put).of_failure? he
  | setValue id value => exact (Store.allOrNothing_setValue id value).of_failure? he
  | link id other => exact (Store.allOrNothing_link id other).of_failure? he
  | _ => exact absurd rfl hmembers

end Operation

namespace Session

variable {σ : Session} {a : Action} {e : LinkError}

/-- The error of an outcome, if it is one. -/
def errorOf {α : Type} : Except LinkError α → Option LinkError
  | .ok _ => none
  | .error e => some e

theorem toOption_of_errorOf {α : Type} {x : Except LinkError α} (h : errorOf x = some e) :
    x.toOption = none := by
  cases x with
  | ok a => cases h
  | error e' => rfl

/-- The error that an action fails with, if it does. -/
def Action.error? (σ : Session) : Action → Option LinkError
  | edit k op => op.error? (σ.store k)
  | add k id object => failure? (Store.add id object) (σ.store k)
  | readMain code => errorOf (StageMain.ofCode code)
  | assign m target expression => errorOf (m.assign target expression)
  | assignVarying k m varying expression =>
    failure? (m.assignVarying varying expression) (σ.store k)
  | make _ | copy _ _ | alter _ _ _ | attach _ _ => none

/-- Whether an action edits the members of a chain. -/
def Action.EditsMembers (a : Action) : Prop := ∃ k op, a = .edit k op ∧ op.EditsMembers

/-- A store whose graph is as it was has spent identifiers at most. -/
theorem setStore_of_graph_eq {k : Nat} {s : Store} (h : s.graph = σ.graphs k) :
    σ.setStore k s = { σ with fresh := s.fresh } := by
  rw [setStore, h, Function.update_eq_self]

/-- **An action that fails changes nothing**, unless it edits the members of a chain: whatever is
done in a session, if it fails, then every graph has the objects, revisions, references and
generation that it had, and so have the main codes, with all that is attached to them and assigned
at their ends. Identifiers may have been spent. -/
theorem failure_keeps_graphs (h : σ.Reachable) (hmembers : ¬ a.EditsMembers)
    (he : a.error? σ = some e) : a.perform σ = { σ with fresh := (a.perform σ).fresh } := by
  cases a with
  | edit k op =>
    have hop : ¬ op.EditsMembers := fun hop => hmembers ⟨k, op, rfl, hop⟩
    exact setStore_of_graph_eq (op.graph_perform_of_error (h.lawful.store k) hop he)
  | add k id o => exact setStore_of_graph_eq ((Store.allOrNothing_add id o).of_failure? he)
  | readMain code => rw [Action.perform, toOption_of_errorOf he]; rfl
  | assign m target expression => rw [Action.perform, toOption_of_errorOf he]; rfl
  | assignVarying k m varying expression =>
    obtain ⟨s, hs⟩ := exists_run_of_failure? he
    have hgraph := m.allOrNothing_assignVarying (σ.store k) varying expression e s hs
    rw [Action.perform, hs]
    exact setStore_of_graph_eq hgraph
  | _ => cases he

/-- A session in which what is bound to a placeholder is gone, and one varying is linked to
another. -/
def unboundSession : Session :=
  empty.edited 0 [.function "float $f(float b) { return $a; }", .text "1.0", .bind ⟨1⟩ "a" ⟨2⟩,
    .remove ⟨2⟩, .varying "p" none, .varying "q" none, .link ⟨3⟩ ⟨4⟩]

/-- The main code of a stage that does nothing. -/
def idleMain : StageMain where
  template := Template.parse "void main() \x7b\x7d"
  staticNames := []
  attachments := []
  outputs := []

/-- Actions that fail in it: a value for the placeholder, a call without arguments, and a varying
that is assigned the other. -/
def unboundFailures : List (Action × LinkError) :=
  [(.edit 0 (.assign ⟨1⟩ "a" (.int 3)), .unknownObject ⟨2⟩),
    (.edit 0 (.call ⟨1⟩ []), .callArity "f" 1 0),
    (.assignVarying 0 idleMain ⟨4⟩ ⟨3⟩, .cyclicDependency ⟨4⟩)]

/-- All of them leave the graph as it was, though the second spends an identifier. -/
theorem failure_keeps_graphs_unbound : unboundSession.Reachable ∧
    ∀ p ∈ unboundFailures, ¬ p.1.EditsMembers ∧ p.1.error? unboundSession = some p.2 ∧
      (p.1.perform unboundSession).graphs = unboundSession.graphs ∧
      (p.1.perform unboundSession).mains = unboundSession.mains := by
  have hany : ReachableBy (fun _ _ => True) unboundSession :=
    ReachableBy.empty.edited fun _ _ _ => trivial
  have herrors : ∀ p ∈ unboundFailures, p.1.error? unboundSession = some p.2 := by decide +kernel
  refine ⟨hany.reachable, fun p hp => ?_⟩
  have hmembers : ¬ p.1.EditsMembers := by
    rintro ⟨k, op, hop, hedits⟩
    simp only [unboundFailures, List.mem_cons, List.not_mem_nil, or_false] at hp
    obtain rfl | rfl | rfl := hp <;> cases hop <;> cases hedits
  have hkept := failure_keeps_graphs hany.reachable hmembers (herrors p hp)
  exact ⟨hmembers, herrors p hp, by rw [hkept], by rw [hkept]⟩

end Session

end ShaderLink
