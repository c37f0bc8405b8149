import ShaderLink.Proofs.Object.Replaced
import ShaderLink.Proofs.Store.Session

/-!
# Properties that objects hand on

Many properties of an object hold when it is made and survive whatever is done to it afterwards, so
all objects have them that edits can make. A property is **hereditary** (`Hereditary`) if

* it holds of an object that is made under a `new` identifier;
* a function hands it on to which something is bound, and a variable that is linked;
* a variable hands it on that takes a value, if its identifier is one of those `given` one, and a
  function that gets a replacement, if its identifier is one of those `rewritten`;
* a chain hands it on that gets other members, or the types of some members of a graph in which all
  objects have the property.

Whatever its effect, an edit hands a hereditary property on (`Store.Effect.all`), provided that the
identifier it may hand out is new, the variable that it gives a value to, if it does
(`Operation.assigned?`), is one of the given ones, and the function that it makes a replacement in,
if it does (`Operation.replacement?`), is one of the rewritten ones.
-/

namespace ShaderLink

/-- Whether all objects of a graph have a property. -/
def Graph.All (I : ObjectId → Object → Prop) (g : Graph) : Prop := ∀ x o, g.find? x = some o → I x o

/-- **A property that objects hand on.** -/
structure Hereditary (I : ObjectId → Object → Prop) (new given rewritten : ObjectId → Prop) :
    Prop where
  made : ∀ {x o}, new x → o.New → I x o
  call : ∀ {x} (c : Call), new x → I x (.call c)
  function : ∀ {x} {s s' : Snippet}, s.Adjusted s' → I x (.function s) → I x (.function s')
  replace : ∀ {x} {s s' : Snippet} {find put lost}, rewritten x →
    s.replace find put = some (s', lost) → I x (.function s) → I x (.function s')
  link : ∀ {x v} (link : Option ObjectId), I x (.var v) → I x (.var { v with link })
  value : ∀ {x v w value changed}, given x → v.setValue value = .ok (w, changed) →
    I x (.var v) → I x (.var w)
  members : ∀ {x c} (members : List ObjectId) (stale : Bool), I x (.chain c) →
    I x (.chain { c with members, stale })
  types : ∀ {g : Graph} {x c types members}, g.All I → g.deriveTypes members = .ok types →
    I x (.chain c) → I x (.chain (c.withTypes types))

variable {I : ObjectId → Object → Prop} {new given rewritten : ObjectId → Prop}

/-! ### Graphs -/

namespace Graph

variable {g : Graph} {id : ObjectId} {o : Object}

theorem all_empty : Graph.empty.All I := fun x o h => by simp [empty, find?] at h

theorem All.congr {g' : Graph} (h : g.All I) (hnodes : ∀ x, g'.find? x = g.find? x) : g'.All I :=
  fun x o ho => h x o (hnodes x ▸ ho)

theorem All.insert (h : g.All I) (ho : I id o) : (g.insert id o).All I := by
  intro x o' ho'
  obtain ⟨rfl, rfl⟩ | ⟨-, ho'⟩ := find?_insert_cases ho'
  · exact ho
  · exact h x o' ho'

theorem All.setObject (h : g.All I) (ho : I id o) : (g.setObject id o).All I := by
  intro x o' ho'
  by_cases hx : id = x
  · subst hx
    cases hfind : g.find? id with
    | none =>
      -- nothing is put where nothing was
      rw [find?_eq_none_iff] at hfind
      rw [find?_eq_none_iff.2 (by simp [hfind])] at ho'
      cases ho'
    | some old =>
      rw [find?_setObject_self hfind] at ho'
      exact Option.some.inj ho' ▸ ho
  · exact h x o' (find?_setObject_of_ne hx ▸ ho')

theorem All.revise (h : g.All I) (ho : I id o) (removed added : List ObjectId) :
    (g.revise id o removed added).All I :=
  (h.setObject ho).congr fun x => by rw [Graph.revise, find?_addReferences, find?_removeReferences]

theorem All.discard (h : g.All I) (id : ObjectId) (o : Object) : (g.discard id o).All I := by
  intro x o' ho'
  by_cases hx : id = x
  · subst hx
    rw [find?_discard_self] at ho'
    cases ho'
  · exact h x o' (find?_discard_of_ne hx ▸ ho')

/-- A chain that is marked stale has the members it had. -/
theorem All.refresh (hI : Hereditary I new given rewritten) (h : g.All I) (chain : ObjectId) :
    (g.refresh chain).2.All I := by
  unfold Graph.refresh
  cases hc : g.getChain chain with
  | error e => exact h
  | ok c =>
    have hold : I chain (.chain c) := h chain _ (getChain_eq_ok_iff.1 hc)
    dsimp only
    cases htypes : g.deriveTypes c.members with
    | error e => exact h.setObject (hI.members c.members true hold)
    | ok types => exact h.setObject (hI.types h htypes hold)

theorem All.touch (hI : Hereditary I new given rewritten) (h : g.All I) (id : ObjectId) :
    (g.touch id).All I := by
  refine List.foldlRecOn (motive := Graph.All I) _ _ (h.congr fun _ => rfl) fun g hg x _ => ?_
  exact List.foldlRecOn (motive := Graph.All I) _ _ (hg.congr fun _ => find?_bump) fun g hg y _ =>
    hg.refresh hI y

end Graph

/-! ### Edits -/

namespace Store

variable {s : Store} {id : ObjectId} {o : Object}

/-- Whether all objects of a store have a property. -/
def All (I : ObjectId → Object → Prop) (s : Store) : Prop := s.graph.All I

/-- What is added has the property if it had it before its types were derived. -/
theorem all_add (hI : Hereditary I new given rewritten) (h : s.All I) (ho : I id o) :
    (stateAfter (add id o) s).All I := by
  cases o with
  | chain c =>
    obtain hsame | ⟨-, types, htypes, hsame⟩ := stateAfter_addChain id c s
    · rw [hsame]
      exact h
    · rw [hsame]
      exact Graph.All.insert h (hI.types h htypes ho)
  | _ => exact Graph.All.insert h ho

/-! ### Edits that give a value -/

/-- A value that is not refused is taken. -/
theorem outcome_setValue {v w : Variable} {value : Value} {changed : Bool}
    (hv : s.graph.find? id = some (.var v)) (hr : v.setValue value = .ok (w, changed)) :
    outcome (setValue id value) s = .ok () := by
  unfold outcome setValue
  rw [run_ask_bind (Graph.getVariable_eq_ok_iff.2 hv), EStateM.run_bind, hr]
  rfl

/-- A variable that is bound to the placeholder takes the value. -/
theorem outcome_assign {f bound : ObjectId} {placeholder : String} {value : Value}
    {snippet : Snippet} {v : Variable} (hf : s.graph.find? f = some (.function snippet))
    (hp : placeholder ∈ snippet.placeholders)
    (hbound : snippet.bindings[placeholder]? = some bound)
    (hv : s.graph.find? bound = some (.var v))
    (hset : outcome (setValue bound value) s = .ok ()) :
    outcome (assign f placeholder value) s = .ok bound := by
  unfold outcome at hset ⊢
  unfold assign
  rw [run_ask_bind (Graph.getFunction_eq_ok_iff.2 hf)]
  dsimp only
  rw [if_pos hp, hbound]
  dsimp only
  rw [run_ask_bind (Graph.get_eq_ok_iff.2 hv)]
  dsimp only
  rw [EStateM.run_bind]
  cases hrun : (setValue bound value).run s with
  | ok _ t => rfl
  | error e t =>
    rw [hrun] at hset
    cases hset

end Store

namespace Operation

/-- The variable that an edit assigns a value to, if it does not fail. -/
def assigned? (op : Operation) (s : Store) : Option ObjectId :=
  match op with
  | setValue id value => (outcome (Store.setValue id value) s).toOption.map fun _ => id
  | assign f placeholder value => (outcome (Store.assign f placeholder value) s).toOption
  | _ => none

/-- The function that an edit makes a replacement in, and the replacement. -/
def replacement? : Operation → Option (ObjectId × String × String)
  | replace f find put => some (f, find, put)
  | _ => none

/-- An edit that gives a variable a value which is not refused assigns it. -/
theorem assigned?_of_gives {op : Operation} {s : Store} {id : ObjectId} {value : Value}
    {v w : Variable} {changed : Bool} (hop : op.Gives s id value)
    (hv : s.graph.find? id = some (.var v)) (hset : v.setValue value = .ok (w, changed)) :
    op.assigned? s = some id := by
  have hvalue := Store.outcome_setValue hv hset
  cases hop with
  | setValue => rw [assigned?, hvalue]; rfl
  | assign hf hp hbound => rw [assigned?, Store.outcome_assign hf hp hbound hv hvalue]; rfl

end Operation

/-! ### Effects -/

namespace Store

variable {s t : Store} {op : Operation} {f : ObjectId}

theorem Rebound.all (hI : Hereditary I new given rewritten) (hrebound : Rebound f s t)
    (h : s.All I) : t.All I := by
  cases hrebound with
  | same => exact h
  | revise hf _ hadjusted _ =>
    exact (Graph.All.revise h (hI.function hadjusted (h f _ hf)) _ _).touch hI f

/-- **Whatever an edit does**, it hands a hereditary property on. -/
theorem Effect.all (hI : Hereditary I new given rewritten) (heffect : s.Effect op t)
    (hnew : op.Makes → new s.fresh) (hgiven : ∀ x, op.assigned? s = some x → given x)
    (hrewritten : ∀ x p, op.replacement? = some (x, p) → rewritten x) (h : s.All I) : t.All I := by
  cases heffect with
  | same => exact h
  | refuse => exact h
  | make hop ho _ _ => exact Graph.All.insert h (hI.made (hnew hop) ho)
  | call hop _ _ => exact Graph.All.insert h (hI.call _ (hnew hop))
  | @chain name anonymous members types hop _ htypes =>
    have hempty : I s.fresh (.chain (.empty name anonymous)) :=
      hI.made (hnew hop) (.chain name anonymous)
    exact Graph.All.insert h (hI.types h htypes (hI.members members false hempty))
  | remove _ _ => exact (Graph.All.discard h _ _).touch hI _
  | rebind hrebound => exact hrebound.all hI h
  | @replace f find put snippet snippet' lost hop hf _ hreplace =>
    have hf' := hI.replace (hrewritten f (find, put) (by rw [hop]; rfl)) hreplace (h f _ hf)
    exact (Graph.All.revise h hf' lost []).touch hI f
  | @value id v w value changed hop hv hset =>
    have hw := hI.value (hgiven id (Operation.assigned?_of_gives hop hv hset)) hset (h id _ hv)
    have hall : (s.graph.setObject id (.var w)).All I := Graph.All.setObject h hw
    cases changed with
    | true => exact hall.touch hI id
    | false => exact hall.congr fun _ => rfl
  | @renew f name value freed _ hop hunbound hbound =>
    have hfresh : new freed.fresh := hunbound.fresh_eq ▸ hnew hop
    refine hbound.all hI (Graph.All.insert (hunbound.all hI h) ?_)
    exact hI.made hfresh (.valued name value)
  | @link id other v _ hv _ _ _ =>
    exact (Graph.All.revise h (hI.link (some other) (h id _ hv)) _ _).touch hI id
  | @members id c members kept gone came _ hc _ _ _ =>
    exact ((Graph.All.revise h (hI.members members c.stale (h id _ hc)) gone came).refresh hI
      id).touch hI id

end Store

theorem StageMain.all_assignVarying {s : Store} (hI : Hereditary I new given rewritten)
    (m : StageMain) (h : s.All I) (varying expression : ObjectId) :
    (stateAfter (m.assignVarying varying expression) s).All I :=
  (m.effect_assignVarying varying expression).all hI nofun nofun nofun h

/-! ### Sessions -/

namespace Session

variable {σ : Session} {k : Nat}

/-- The variable of a graph that an action assigns a value to, if it does not fail. -/
def Action.assigned? (σ : Session) (k : Nat) : Action → Option ObjectId
  | .edit j op => if j = k then op.assigned? (σ.store k) else none
  | _ => none

/-- The function of a graph that an action makes a replacement in, and the replacement. -/
def Action.replacement? (k : Nat) : Action → Option (ObjectId × String × String)
  | .edit j op => if j = k then op.replacement? else none
  | _ => none

/-- **An action hands a hereditary property on**, if it adds nothing without the property. -/
theorem Action.all_perform (hσ : σ.Lawful) (hI : Hereditary I new given rewritten)
    (hnew : new σ.fresh) {a : Action} (hadd : ∀ x o, a = .add k x o → I x o)
    (hgiven : ∀ x, a.assigned? σ k = some x → given x)
    (hrewritten : ∀ x p, a.replacement? k = some (x, p) → rewritten x) (h : (σ.graphs k).All I) :
    ((a.perform σ).graphs k).All I := by
  obtain ⟨x, o, rfl, hgraph⟩ | hadds := a.adds_cases σ k
  · rw [hgraph]
    exact Store.all_add (s := σ.store k) hI h (hadd x o rfl)
  · obtain hgraph | ⟨op, hop, heffect⟩ := Action.exists_effect hσ hadds
    · rw [hgraph]
      exact h
    · refine heffect.all hI (fun _ => hnew) ?_ ?_ h
      · intro x hx
        cases hop with
        | edit => exact hgiven x (by rw [Action.assigned?, if_pos rfl, hx])
        | assignVarying => cases hx
      · intro x p hp
        cases hop with
        | edit => exact hrewritten x p (by rw [Action.replacement?, if_pos rfl, hp])
        | assignVarying => cases hp

/-- Objects at hand hand the property on as well, and so do the objects of graphs that are
copied. -/
theorem Action.all_loose {I : Object → Prop}
    (hI : Hereditary (fun _ => I) (fun _ => True) (fun _ => True) fun _ => True) {a : Action}
    (ha : a.Possible σ) (hgraphs : ∀ k, (σ.graphs k).All fun _ => I) (h : ∀ p ∈ σ.loose, I p.2) :
    ∀ p ∈ (a.perform σ).loose, I p.2 := by
  intro p hp
  cases a with
  | make o =>
    obtain rfl | hp := List.mem_cons.1 hp
    · exact hI.made (x := σ.fresh) trivial ha
    · exact h p hp
  | copy k id =>
    obtain hp | hp := List.mem_append.1 hp
    · simp only [Option.mem_toList, Option.map_eq_some_iff] at hp
      obtain ⟨o, ho, rfl⟩ := hp
      exact hgraphs k id o ho
    · exact h p hp
  | alter id old new =>
    obtain rfl | hp := List.mem_cons.1 hp
    · have hold : I old := h _ ha.1
      cases ha.2 with
      | setValue hvalue => exact hI.value (x := id) trivial hvalue hold
      | requiring s requires => exact hI.function (x := id) (.requiring s requires) hold
    · exact h p hp
  | assignVarying k m varying expression =>
    rw [perform_assignVarying] at hp
    exact h p hp
  | _ => exact h p hp

/-- **What is handed on whatever is done** holds of all objects of a session. -/
theorem Reachable.all {I : Object → Prop}
    (hI : Hereditary (fun _ => I) (fun _ => True) (fun _ => True) fun _ => True) (h : Reachable σ) :
    (∀ k, (σ.graphs k).All fun _ => I) ∧ ∀ p ∈ σ.loose, I p.2 := by
  induction h with
  | empty => exact ⟨fun _ => Graph.all_empty, fun _ hp => absurd hp List.not_mem_nil⟩
  | @act σ hσ a ha ih =>
    refine ⟨fun k => Action.all_perform hσ.lawful hI trivial ?_ (fun _ _ => trivial) (fun _ _ _ => trivial)
      (ih.1 k),
      Action.all_loose hI ha ih.1 ih.2⟩
    rintro x o rfl
    exact ih.2 _ ha

end Session

end ShaderLink
