import ShaderLink.Proofs.Store.Session

/-!
# The moves that edits make

A **move** is what is left of the effect of an edit (`Store.Effect.move`) where it does not matter
which edit it was, how the graph had answered when it was asked for circles, and what exactly became
of a function (`Store.Move`). Every edit makes one move (`Operation.move`). What holds across many
edits is proved by cases on their moves.

A move says more than the steps of a graph (`Graph.Step`): what a variable may be linked to, which
members a chain may get and what is known of a call that is made.

A move is **mild** if it changes nothing that can be called (`Store.Mild`). Only mild moves are made
in a row: to give a placeholder a value may take away what is bound to it, make a variable and bind
it.
Whatever the move, objects that are not removed stay (`Store.Move.mem_ids`).
-/

namespace ShaderLink

open Relation

namespace Store

/-- **A mild move**: a function that keeps its signature is revised, or a variable is made that is
not linked. -/
inductive Mild : Store → Store → Prop where
  | function {s : Store} {id : ObjectId} {f f' : Snippet} (kept removed added : List ObjectId)
      (hf : s.graph.find? id = some (.function f)) (hsig : f'.signature = f.signature)
      (hold : f.boundObjects.Perm (kept ++ removed)) (hnow : f'.boundObjects.Perm (kept ++ added)) :
      Mild s { s with graph := (s.graph.revise id (.function f') removed added).touch id }
  | unlinked {s : Store} {v : Variable} (habsent : s.graph.find? s.fresh = none)
      (hlink : v.link = none) : Mild s ⟨s.graph.insert s.fresh (.var v), s.fresh.next⟩

/-- **What an edit does to a store.** Only variables that are `relinked` are linked, and only objects
that are `removed` go. -/
inductive Move (relinked removed : ObjectId → Prop) : Store → Store → Prop where
  | mild {s t : Store} (h : ReflTransGen Mild s t) : Move relinked removed s t
  /-- An identifier is handed out, and the object is refused. -/
  | refuse (s : Store) : Move relinked removed s ⟨s.graph, s.fresh.next⟩
  | make {s : Store} {o : Object} (habsent : s.graph.find? s.fresh = none) (ho : o.New) :
      Move relinked removed s ⟨s.graph.insert s.fresh o, s.fresh.next⟩
  | call {s : Store} {c : Call} (habsent : s.graph.find? s.fresh = none)
      (hparts : ∀ x ∈ c.callee :: c.arguments, x ∈ s.graph.ids)
      (hcheck : s.graph.checkCall c = .ok ()) :
      Move relinked removed s ⟨s.graph.insert s.fresh (.call c), s.fresh.next⟩
  | chain {s : Store} {c : Chain} {types : List Argument × String}
      (habsent : s.graph.find? s.fresh = none) (hmembers : ∀ x ∈ c.members, s.graph.Callable x)
      (htypes : s.graph.deriveTypes c.members = .ok types) :
      Move relinked removed s ⟨s.graph.insert s.fresh (.chain (c.withTypes types)), s.fresh.next⟩
  | value {s : Store} {id : ObjectId} {v w : Variable} {value : Value} {changed : Bool}
      (hv : s.graph.find? id = some (.var v)) (hset : v.setValue value = .ok (w, changed)) :
      Move relinked removed s
        { s with graph :=
            if changed then (s.graph.setObject id (.var w)).touch id
            else (s.graph.setObject id (.var w)).advance }
  | link {s : Store} {id other : ObjectId} {v : Variable} (hid : relinked id)
      (hv : s.graph.find? id = some (.var v)) (hother : other ∈ s.graph.ids) :
      Move relinked removed s
        { s with graph :=
            (s.graph.revise id (.var { v with link := some other }) v.link.toList [other]).touch id }
  /-- A chain gets other members, each of them one that it had or one that can be called. -/
  | members {s : Store} {id : ObjectId} {c : Chain} (members kept gone came : List ObjectId)
      (hc : s.graph.find? id = some (.chain c)) (hold : c.members.Perm (kept ++ gone))
      (hnow : members.Perm (kept ++ came))
      (hmembers : ∀ x ∈ members, x ∈ c.members ∨ s.graph.Callable x) :
      Move relinked removed s
        { s with graph :=
            ((s.graph.revise id (.chain { c with members }) gone came).refresh id).2.touch id }
  | remove {s : Store} {id : ObjectId} {o : Object} (hid : removed id)
      (ho : s.graph.find? id = some o) :
      Move relinked removed s { s with graph := (s.graph.discard id o).touch id }

variable {relinked removed : ObjectId → Prop} {s : Store}

theorem Move.refl (s : Store) : Move relinked removed s s := .mild .refl

/-! ### What stays -/

section Staying

variable {g : Graph} {t : Store} {x id : ObjectId}

theorem mem_ids_insert (hx : x ∈ g.ids) (id : ObjectId) (o : Object) : x ∈ (g.insert id o).ids := by
  obtain ⟨o', ho'⟩ := Graph.mem_ids_iff.1 hx
  by_cases hid : id = x
  · exact Graph.mem_ids_iff.2 ⟨o, hid ▸ Graph.find?_insert_self g id o⟩
  · exact Graph.mem_ids_of_find? ((Graph.find?_insert_of_ne hid).trans ho')

theorem mem_ids_setObject (hx : x ∈ g.ids) (id : ObjectId) (o : Object) :
    x ∈ (g.setObject id o).ids := by
  obtain ⟨o', ho'⟩ := Graph.mem_ids_iff.1 hx
  by_cases hid : id = x
  · subst hid
    exact Graph.mem_ids_of_find? (Graph.find?_setObject_self ho' o)
  · exact Graph.mem_ids_of_find? ((Graph.find?_setObject_of_ne hid).trans ho')

theorem mem_ids_revise (hx : x ∈ g.ids) (id : ObjectId) (o : Object)
    (removed added : List ObjectId) : x ∈ (g.revise id o removed added).ids := by
  obtain ⟨o', ho'⟩ := Graph.mem_ids_iff.1 (mem_ids_setObject hx id o)
  refine Graph.mem_ids_iff.2 ⟨o', ?_⟩
  rwa [Graph.revise, Graph.find?_addReferences, Graph.find?_removeReferences]

theorem mem_ids_touch (hx : x ∈ g.ids) (id : ObjectId) : x ∈ (g.touch id).ids := by
  rw [(Graph.retyping_touch g id).ids_eq]
  exact hx

theorem Mild.mem_ids (h : Mild s t) (hx : x ∈ s.graph.ids) : x ∈ t.graph.ids := by
  cases h with
  | function kept removed added hf hsig hold hnow =>
    exact mem_ids_touch (mem_ids_revise hx _ _ _ _) _
  | unlinked habsent hlink => exact mem_ids_insert hx _ _

/-- **What is not removed stays.** -/
theorem Move.mem_ids (h : Move relinked removed s t) (hremoved : ¬ removed x)
    (hx : x ∈ s.graph.ids) : x ∈ t.graph.ids := by
  cases h with
  | mild h =>
    induction h with
    | refl => exact hx
    | tail _ hmild ih => exact hmild.mem_ids ih
  | refuse => exact hx
  | make habsent ho => exact mem_ids_insert hx _ _
  | call habsent hparts hcheck => exact mem_ids_insert hx _ _
  | chain habsent hmembers htypes => exact mem_ids_insert hx _ _
  | @value id v w value changed hv hset =>
    cases changed with
    | true => exact mem_ids_touch (mem_ids_setObject hx _ _) _
    | false => exact mem_ids_setObject hx _ _
  | link hid hv hother => exact mem_ids_touch (mem_ids_revise hx _ _ _ _) _
  | members members kept gone came hc hold hnow hmembers =>
    refine mem_ids_touch ?_ _
    rw [Graph.refresh_of_chain (Graph.find?_revise_self hc)]
    exact mem_ids_setObject (mem_ids_revise hx _ _ _ _) _ _
  | @remove id o hid ho =>
    have hne : id ≠ x := fun heq => hremoved (heq ▸ hid)
    obtain ⟨o', ho'⟩ := Graph.mem_ids_iff.1 hx
    exact mem_ids_touch (Graph.mem_ids_of_find? ((Graph.find?_discard_of_ne hne).trans ho')) _

end Staying

/-! ### From effects to moves -/

theorem Rebound.mild {f : ObjectId} {t : Store} (h : Rebound f s t) : ReflTransGen Mild s t := by
  cases h with
  | same => exact .refl
  | revise hf hrebinds _ _ =>
    exact .single (.function _ _ _ hf hrebinds.signature_eq hrebinds.before hrebinds.now)

theorem Effect.move {op : Operation} {t : Store} (hs : s.Lawful) (h : Effect op s t)
    (hlink : ∀ x other, op = .link x other → relinked x)
    (hremove : ∀ x, op = .remove x → removed x) : Move relinked removed s t := by
  cases h with
  | same => exact .refl s
  | refuse => exact .refuse s
  | make _ ho _ _ => exact .make hs.find?_fresh ho
  | call _ hparts hcheck => exact .call hs.find?_fresh hparts hcheck
  | chain _ hmembers htypes => exact .chain hs.find?_fresh hmembers htypes
  | remove hop ho => exact .remove (hremove _ hop) ho
  | rebind h => exact .mild h.mild
  | replace _ hf hrebinds _ =>
    exact .mild (.single (.function _ _ _ hf hrebinds.signature_eq hrebinds.before hrebinds.now))
  | value _ hv hset => exact .value hv hset
  | @renew f name value freed _ _ hunbound hbound =>
    have hmade : Mild freed
        ⟨freed.graph.insert freed.fresh (.var (.ofValue name value)), freed.fresh.next⟩ :=
      .unlinked (hunbound.lawful hs).find?_fresh rfl
    exact .mild ((hunbound.mild.tail hmade).trans hbound.mild)
  | link hop hv hother _ _ => exact .link (hlink _ _ hop) hv hother
  | members members kept gone came _ hc hold hnow hmembers =>
    exact .members members kept gone came hc hold hnow fun x hx =>
      (hmembers x hx).imp_right fun h => h.2.1

end Store

namespace Operation

/-- Whether an edit links a variable. -/
def Links (op : Operation) (x : ObjectId) : Prop := ∃ other, op = .link x other

/-- Whether an edit removes an object. -/
def Removes (op : Operation) (x : ObjectId) : Prop := op = .remove x

/-- **Every edit makes one move.** -/
theorem move {s : Store} (hs : s.Lawful) (op : Operation) :
    Store.Move op.Links op.Removes s (op.perform s) :=
  (op.effect hs).move hs (fun _ other hop => ⟨other, hop⟩) fun _ hop => hop

end Operation

theorem StageMain.move_assignVarying {relinked removed : ObjectId → Prop} {s : Store}
    (hs : s.Lawful) (m : StageMain) {varying : ObjectId} (hvarying : relinked varying)
    (expression : ObjectId) :
    Store.Move relinked removed s (stateAfter (m.assignVarying varying expression) s) := by
  refine (m.effect_assignVarying varying expression).move hs ?_ nofun
  rintro x other ⟨⟩
  exact hvarying

namespace Session

variable {σ : Session} {k : Nat}

namespace Action

/-- The actions that link a variable of a graph to an object, if they do not fail. -/
inductive LinksTo (k : Nat) (x e : ObjectId) : Action → Prop where
  | edit : LinksTo k x e (.edit k (.link x e))
  | assignVarying (m : StageMain) : LinksTo k x e (.assignVarying k m x e)

/-- Whether an action links a variable of a graph. -/
def Links (k : Nat) (a : Action) (x : ObjectId) : Prop := ∃ e, a.LinksTo k x e

/-- Whether an action removes an object from a graph. -/
def Removes (k : Nat) (a : Action) (x : ObjectId) : Prop :=
  ∃ op : Operation, a = .edit k op ∧ op.Removes x

/-- **An action makes one move** of each graph to which it adds nothing, or leaves the graph as it
is. -/
theorem move (h : σ.Lawful) {a : Action} (hadd : ∀ x, ¬ a.Adds k x) :
    (a.perform σ).graphs k = σ.graphs k ∨
      Store.Move (a.Links k) (a.Removes k) (σ.store k) ((a.perform σ).store k) := by
  refine (Action.exists_effect h hadd).imp_right ?_
  rintro ⟨op, hop, heffect⟩
  refine heffect.move (h.store k) ?_ ?_
  · rintro x other rfl
    cases hop with
    | edit => exact ⟨other, .edit⟩
    | assignVarying m => exact ⟨other, .assignVarying m⟩
  · rintro x rfl
    cases hop with
    | edit => exact ⟨_, rfl, rfl⟩

/-- **What an action does not remove stays.** -/
theorem mem_ids (h : σ.Lawful) {a : Action} {x : ObjectId} (hremoves : ¬ a.Removes k x)
    (hx : x ∈ (σ.graphs k).ids) : x ∈ ((a.perform σ).graphs k).ids := by
  obtain ⟨y, o, rfl, hgraph⟩ | hadds := a.adds_cases σ k
  · rw [hgraph]
    obtain hsame | ⟨o', -, hinsert⟩ := Store.stateAfter_add y o (σ.store k)
    · rwa [hsame]
    · rw [hinsert]
      exact Store.mem_ids_insert hx y o'
  · obtain hsame | hmove := Action.move h hadds
    · rwa [hsame]
    · exact hmove.mem_ids hremoves hx

end Action

end Session

end ShaderLink
