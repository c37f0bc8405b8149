import ShaderLink.Proofs.Object.Replaced
import ShaderLink.Proofs.Store.Asking
import ShaderLink.Proofs.Store.Evolution

/-!
# What each edit does

What an edit makes of a store is read off its steps here and nowhere else. Every edit has one
**effect** (`Operation.effect`): it makes an object, revises one and passes the change on, or removes
one, and each kind of object is revised in its own ways (`Store.Effect`). An effect says all that is
known when it happens: what the graph has answered to the questions that were asked before, what has
become of the objects that a function is bound to (`Store.Rebound`), and which edits have it at all.
Whatever holds of all edits is proved by cases on the effect.

The first thing that is read off the effects is how stores evolve (`Operation.edited`).
-/

namespace ShaderLink

/-- An edit of a store with all that it is given, other than adding an object that was made
elsewhere. -/
inductive Operation where
  | function (code : String)
  | functionRequiring (code : String) (requires : List ObjectId)
  | unassigned (name : String)
  | declare (declaration : String)
  | valued (name : String) (value : Value)
  | varying (name : String) (type : Option String)
  | text (code : String)
  | call (callee : ObjectId) (arguments : List ObjectId)
  | chain (name : String) (anonymous : Bool) (members : List ObjectId)
  | remove (id : ObjectId)
  | bind (f : ObjectId) (placeholder : String) (object : ObjectId)
  | unbind (f : ObjectId) (placeholder : String)
  | assign (f : ObjectId) (placeholder : String) (value : Value)
  | replace (f : ObjectId) (find put : String)
  | setValue (id : ObjectId) (value : Value)
  | link (id other : ObjectId)
  | append (c member : ObjectId)
  | prepend (c member : ObjectId)
  | insertMember (c : ObjectId) (index : Nat) (member : ObjectId)
  | setMember (c : ObjectId) (index : Nat) (member : ObjectId)
  | removeMember (c member : ObjectId)

namespace Operation

/-- The store that an edit leaves, whether it answers or fails. -/
def perform : Operation → Store → Store
  | function code => stateAfter (Store.function code)
  | functionRequiring code requires => stateAfter (Store.functionRequiring code requires)
  | unassigned name => stateAfter (Store.unassigned name)
  | declare declaration => stateAfter (Store.declare declaration)
  | valued name value => stateAfter (Store.valued name value)
  | varying name type => stateAfter (Store.varying name type)
  | text code => stateAfter (Store.text code)
  | call callee arguments => stateAfter (Store.call callee arguments)
  | chain name anonymous members => stateAfter (Store.chain name anonymous members)
  | remove id => stateAfter (Store.remove id)
  | bind f placeholder object => stateAfter (Store.bind f placeholder object)
  | unbind f placeholder => stateAfter (Store.unbind f placeholder)
  | assign f placeholder value => stateAfter (Store.assign f placeholder value)
  | replace f find put => stateAfter (Store.replace f find put)
  | setValue id value => stateAfter (Store.setValue id value)
  | link id other => stateAfter (Store.link id other)
  | append c member => stateAfter (Store.append c member)
  | prepend c member => stateAfter (Store.prepend c member)
  | insertMember c index member => stateAfter (Store.insertMember c index member)
  | setMember c index member => stateAfter (Store.setMember c index member)
  | removeMember c member => stateAfter (Store.removeMember c member)

end Operation

/-! ### Objects that functions are bound to -/

namespace Snippet

variable {s s' : Snippet}

theorem requires_of_replace {find put : String} {lost : List ObjectId}
    (h : s.replace find put = some (s', lost)) : s'.requires = s.requires := by
  unfold replace at h
  split at h
  · cases h
  · cases h
    rfl

/-- Nothing is bound to the placeholders of code that was just read. -/
theorem of_ofCode {code : String} (h : ofCode code = .ok s) : s.requires = [] ∧ s.bindings = ∅ := by
  obtain ⟨dedented, signature, -, -, rfl⟩ := ofCode_eq_ok_iff.1 h
  exact ⟨rfl, rfl⟩

/-- **A function is bound to other objects**, of which some were `kept`, some `removed` and some
`added`, and stays the same to those that call it. -/
structure Rebinds (s s' : Snippet) (kept removed added : List ObjectId) : Prop where
  signature_eq : s'.signature = s.signature
  requires_eq : s'.requires = s.requires
  wellFormed : s'.WellFormed
  before : s.boundObjects.Perm (kept ++ removed)
  now : s'.boundObjects.Perm (kept ++ added)

theorem rebinds_bind {placeholder : String} {object : ObjectId} (hs : s.WellFormed)
    (h : s.bind placeholder object = .ok (some s')) :
    s.Rebinds s' s.boundObjects [] [object] := by
  obtain ⟨rfl, hp, hnone⟩ := bind_eq_some h
  refine ⟨rfl, rfl, hs.insert hp, ?_, ?_⟩
  · exact (List.append_nil _).symm ▸ .refl _
  · exact (boundObjects_insert_perm hs hp hnone).trans (List.perm_append_singleton object _).symm

theorem rebinds_unbind {placeholder : String} {object : ObjectId} (hs : s.WellFormed)
    (h : s.bindings[placeholder]? = some object) :
    s.Rebinds (s.unbind placeholder) (s.unbind placeholder).boundObjects [object] [] := by
  refine ⟨rfl, rfl, hs.unbind placeholder, ?_, ?_⟩
  · exact (boundObjects_unbind_perm hs h).trans (List.perm_append_singleton object _).symm
  · exact (List.append_nil _).symm ▸ .refl _

theorem rebinds_replace {find put : String} {lost : List ObjectId} (hs : s.WellFormed)
    (h : s.replace find put = some (s', lost)) : s.Rebinds s' s'.boundObjects lost [] := by
  obtain ⟨hwf, hsig, -⟩ := replace_eq_some h
  exact ⟨hsig, requires_of_replace h, hwf, boundObjects_replace_perm hs h,
    (List.append_nil _).symm ▸ .refl _⟩

end Snippet

namespace Operation

/-- The edits that give a value to a variable. -/
inductive Gives (s : Store) (id : ObjectId) (value : Value) : Operation → Prop where
  | setValue : Gives s id value (.setValue id value)
  /-- The variable is bound to the placeholder. -/
  | assign {f : ObjectId} {placeholder : String} {snippet : Snippet}
      (hf : s.graph.find? f = some (.function snippet))
      (hp : placeholder ∈ snippet.placeholders)
      (hbound : snippet.bindings[placeholder]? = some id) :
      Gives s id value (.assign f placeholder value)

/-- The edits that may make an object. -/
def Makes : Operation → Prop
  | function _ | functionRequiring _ _ | unassigned _ | declare _ | valued _ _ | varying _ _
  | text _ | call _ _ | chain _ _ _ | assign _ _ _ => True
  | _ => False

/-- The chain that an edit gives other members. -/
def rechained? : Operation → Option ObjectId
  | append c _ | prepend c _ | insertMember c _ _ | setMember c _ _ | removeMember c _ => some c
  | _ => none

end Operation

namespace Store

/-- **A function is bound or unbound**, or neither. What is bound to it is there, and does not depend
on the function. -/
inductive Rebound (f : ObjectId) (s : Store) : Store → Prop where
  | same : Rebound f s s
  | revise {snippet snippet' : Snippet} {kept removed added : List ObjectId}
      (hf : s.graph.find? f = some (.function snippet))
      (hrebinds : snippet.Rebinds snippet' kept removed added)
      (hadjusted : snippet.Adjusted snippet')
      (hadded : ∀ x ∈ added, x ∈ s.graph.ids ∧ ¬ s.graph.reaches x f) :
      Rebound f s
        { s with graph := (s.graph.revise f (.function snippet') removed added).touch f }

/-- **What an edit does to a store.** -/
inductive Effect (op : Operation) (s : Store) : Store → Prop where
  /-- The edit is refused, or there is nothing to do. -/
  | same : Effect op s s
  /-- An identifier is handed out, and the object is refused. -/
  | refuse : Effect op s ⟨s.graph, s.fresh.next⟩
  | make {o : Object} (hop : op.Makes) (ho : o.New) (hchain : ∀ c, o ≠ .chain c)
      (hthere : ∀ x ∈ o.dependencies, x ∈ s.graph.ids) :
      Effect op s ⟨s.graph.insert s.fresh o, s.fresh.next⟩
  | call {c : Call} (hop : op.Makes) (hparts : ∀ x ∈ c.callee :: c.arguments, x ∈ s.graph.ids)
      (hcheck : s.graph.checkCall c = .ok ()) :
      Effect op s ⟨s.graph.insert s.fresh (.call c), s.fresh.next⟩
  | chain {name : String} {anonymous : Bool} {members : List ObjectId}
      {types : List Argument × String} (hop : op.Makes)
      (hmembers : ∀ x ∈ members, s.graph.Callable x)
      (htypes : s.graph.deriveTypes members = .ok types) :
      Effect op s
        ⟨s.graph.insert s.fresh
          (.chain (Chain.withTypes { Chain.empty name anonymous with members } types)), s.fresh.next⟩
  | remove {id : ObjectId} {o : Object} (hop : op = .remove id)
      (ho : s.graph.find? id = some o) :
      Effect op s { s with graph := (s.graph.discard id o).touch id }
  | rebind {f : ObjectId} {t : Store} (h : Rebound f s t) : Effect op s t
  | replace {f : ObjectId} {find put : String} {snippet snippet' : Snippet} {lost : List ObjectId}
      (hop : op = .replace f find put) (hf : s.graph.find? f = some (.function snippet))
      (hrebinds : snippet.Rebinds snippet' snippet'.boundObjects lost [])
      (hreplace : snippet.replace find put = some (snippet', lost)) :
      Effect op s { s with graph := (s.graph.revise f (.function snippet') lost []).touch f }
  | value {id : ObjectId} {v w : Variable} {value : Value} {changed : Bool}
      (hop : op.Gives s id value) (hv : s.graph.find? id = some (.var v))
      (hset : v.setValue value = .ok (w, changed)) :
      Effect op s
        { s with graph :=
            if changed then (s.graph.setObject id (.var w)).touch id
            else (s.graph.setObject id (.var w)).advance }
  /-- What is bound to a placeholder makes way for a new variable. -/
  | renew {f : ObjectId} {name : String} {value : Value} {t u : Store} (hop : op.Makes)
      (hunbound : Rebound f s t)
      (hbound : Rebound f ⟨t.graph.insert t.fresh (.var (.ofValue name value)), t.fresh.next⟩ u) :
      Effect op s u
  | link {id other : ObjectId} {v : Variable} (hop : op = .link id other)
      (hv : s.graph.find? id = some (.var v)) (hother : other ∈ s.graph.ids) (hne : id ≠ other)
      (hlinks : ¬ s.graph.linksTo other id) :
      Effect op s
        { s with graph :=
            (s.graph.revise id (.var { v with link := some other }) v.link.toList [other]).touch id }
  /-- A chain gets other members, each of them one that it had or one that can be called and does
  not depend on the chain. The change is passed on even if the types could not be derived. -/
  | members {id : ObjectId} {c : Chain} (members kept gone came : List ObjectId)
      (hop : op.rechained? = some id) (hc : s.graph.find? id = some (.chain c))
      (hold : c.members.Perm (kept ++ gone)) (hnow : members.Perm (kept ++ came))
      (hmembers : ∀ x ∈ members, x ∈ c.members ∨
        (x ≠ id ∧ s.graph.Callable x ∧ ¬ s.graph.reaches x id)) :
      Effect op s
        { s with graph :=
            ((s.graph.revise id (.chain { c with members }) gone came).refresh id).2.touch id }

variable {s t u : Store} {op : Operation}

/-! ### Making and removing objects -/

theorem effect_create {o : Object} (hop : op.Makes) (ho : o.New) (hchain : ∀ c, o ≠ .chain c)
    (hthere : ∀ x ∈ o.dependencies, x ∈ s.graph.ids) : Effect op s (stateAfter (create o) s) :=
  .make hop ho hchain hthere

/-- A function of code that was just read depends on what it requires. -/
theorem effect_createFunction {code : String} {snippet : Snippet} {requires : List ObjectId}
    (hop : op.Makes) (hsnippet : Snippet.ofCode code = .ok snippet)
    (hrequires : ∀ x ∈ requires, x ∈ s.graph.ids) :
    Effect op s (stateAfter (create (.function { snippet with requires })) s) := by
  refine effect_create hop (.function hsnippet requires) nofun fun x hx => ?_
  obtain hx | hx := List.mem_append.1 hx
  · exact hrequires x hx
  · obtain ⟨placeholder, -, hbound⟩ := List.mem_filterMap.1 hx
    simp [(Snippet.of_ofCode hsnippet).2] at hbound

theorem effect_function (code : String) :
    Effect (.function code) s (stateAfter (function code) s) := by
  refine stateAfter_ofExcept_bind .same fun snippet hsnippet => ?_
  have hrequires : ∀ x ∈ snippet.requires, x ∈ s.graph.ids := by
    rw [(Snippet.of_ofCode hsnippet).1]
    nofun
  exact effect_createFunction trivial hsnippet hrequires

theorem effect_functionRequiring (code : String) (requires : List ObjectId) :
    Effect (.functionRequiring code requires) s
      (stateAfter (functionRequiring code requires) s) := by
  refine stateAfter_read .same (stateAfter_askEach requires (fun id g => g.get id) s)
    fun _ hask => ?_
  refine stateAfter_ofExcept_bind .same fun snippet hsnippet => ?_
  refine effect_createFunction trivial hsnippet fun x hx => ?_
  obtain ⟨o, ho⟩ := exists_of_askEach hask x hx
  exact Graph.mem_ids_of_find? (Graph.get_eq_ok_iff.1 ho)

theorem effect_declare (declaration : String) :
    Effect (.declare declaration) s (stateAfter (declare declaration) s) := by
  unfold declare
  split
  · next d hd => exact effect_create trivial (.declared hd) nofun nofun
  · exact .same

theorem effect_call (callee : ObjectId) (arguments : List ObjectId) :
    Effect (.call callee arguments) s (stateAfter (call callee arguments) s) := by
  refine stateAfter_ask_bind .same fun o ho => ?_
  refine stateAfter_read .same (stateAfter_askEach arguments (fun id g => g.get id) s)
    fun _ hask => ?_
  -- the identifier is handed out before the call is checked
  change Effect _ s (stateAfter (ask _ >>= _) ⟨s.graph, s.fresh.next⟩)
  refine stateAfter_ask_bind (p := Effect _ s) .refuse fun _ hcheck => ?_
  refine .call trivial (fun x hx => ?_) hcheck
  obtain rfl | hx := List.mem_cons.1 hx
  · exact Graph.mem_ids_of_find? (Graph.get_eq_ok_iff.1 ho)
  · obtain ⟨o, ho⟩ := exists_of_askEach hask x hx
    exact Graph.mem_ids_of_find? (Graph.get_eq_ok_iff.1 ho)

/-- Adding a chain derives its types from its members, which have to be callable, and inserts it; or
it changes nothing. -/
theorem stateAfter_addChain (id : ObjectId) (c : Chain) (s : Store) :
    stateAfter (add id (.chain c)) s = s ∨
      (∀ x ∈ c.members, s.graph.Callable x) ∧ ∃ types, s.graph.deriveTypes c.members = .ok types ∧
        stateAfter (add id (.chain c)) s =
          { s with graph := s.graph.insert id (.chain (c.withTypes types)) } := by
  -- asking for the members leaves the store as it is, so only the last step counts
  let p : Store → Prop := fun t => t = s ∨ (∀ x ∈ c.members, s.graph.Callable x) ∧
    ∃ types, s.graph.deriveTypes c.members = .ok types ∧
      t = { s with graph := s.graph.insert id (.chain (c.withTypes types)) }
  refine stateAfter_read (p := p) (.inl rfl)
    (stateAfter_askEach c.members (fun id g => g.callable id) s) fun _ hask => ?_
  refine stateAfter_ask_bind (p := p) (.inl rfl) fun types htypes => ?_
  exact .inr ⟨exists_of_askEach hask, types, htypes, rfl⟩

/-- Adding an object either inserts it, up to the types of a chain, or changes nothing. -/
theorem stateAfter_add (id : ObjectId) (o : Object) (s : Store) :
    stateAfter (add id o) s = s ∨ ∃ o', o.Retyped o' ∧
      stateAfter (add id o) s = { s with graph := s.graph.insert id o' } := by
  cases o with
  | chain c =>
    refine (stateAfter_addChain id c s).imp_right ?_
    rintro ⟨-, types, -, h⟩
    exact ⟨_, Object.retyped_withTypes c types, h⟩
  | _ => exact .inr ⟨_, .same _, rfl⟩

theorem effect_chain (name : String) (anonymous : Bool) (members : List ObjectId) :
    Effect (.chain name anonymous members) s (stateAfter (chain name anonymous members) s) := by
  change Effect _ s (stateAfter (add s.fresh (.chain _)) ⟨s.graph, s.fresh.next⟩)
  obtain h | ⟨hmembers, types, htypes, h⟩ := stateAfter_addChain s.fresh
    { Chain.empty name anonymous with members } ⟨s.graph, s.fresh.next⟩
  · rw [h]
    exact .refuse
  · rw [h]
    exact .chain trivial hmembers htypes

theorem effect_remove (id : ObjectId) : Effect (.remove id) s (stateAfter (remove id) s) :=
  stateAfter_ask_bind .same fun _ ho => .remove rfl (Graph.get_eq_ok_iff.1 ho)

/-! ### Editing functions -/

theorem rebound_bind (hs : s.Lawful) (f : ObjectId) (placeholder : String) (object : ObjectId) :
    Rebound f s (stateAfter (bind f placeholder object) s) := by
  refine stateAfter_ask_bind .same fun o ho => ?_
  refine stateAfter_read .same (stateAfter_checkAcyclic f object s) fun _ hacyclic => ?_
  refine stateAfter_ask_bind .same fun snippet hsnippet => ?_
  refine stateAfter_ofExcept_bind .same fun bound hbound => ?_
  cases bound with
  | none => exact .same
  | some bound =>
    have hf := Graph.getFunction_eq_ok_iff.1 hsnippet
    refine .revise hf (Snippet.rebinds_bind (hs.wellFormed _ _ hf) hbound) (.bind hbound)
      fun x hx => ?_
    obtain rfl := List.mem_singleton.1 hx
    exact ⟨Graph.mem_ids_of_find? (Graph.get_eq_ok_iff.1 ho), (of_checkAcyclic hacyclic).2⟩

theorem rebound_unbind (hs : s.Lawful) (f : ObjectId) (placeholder : String) :
    Rebound f s (stateAfter (unbind f placeholder) s) := by
  refine stateAfter_ask_bind .same fun snippet hsnippet => ?_
  have hf := Graph.getFunction_eq_ok_iff.1 hsnippet
  dsimp only
  cases hprevious : snippet.bindings[placeholder]? with
  | none => exact .same
  | some object =>
    exact .revise hf (Snippet.rebinds_unbind (hs.wellFormed _ _ hf) hprevious)
      (.unbind snippet placeholder) nofun

theorem effect_replace (hs : s.Lawful) (f : ObjectId) (find put : String) :
    Effect (.replace f find put) s (stateAfter (replace f find put) s) := by
  refine stateAfter_ask_bind .same fun snippet hsnippet => ?_
  have hf := Graph.getFunction_eq_ok_iff.1 hsnippet
  cases hr : snippet.replace find put with
  | none => exact .same
  | some r =>
    obtain ⟨replaced, lost⟩ := r
    exact .replace rfl hf (Snippet.rebinds_replace (hs.wellFormed _ _ hf) hr) hr

theorem edited_rebinds {flip tangled : Prop} {f : ObjectId} {snippet snippet' : Snippet}
    {kept removed added : List ObjectId} (hf : s.graph.find? f = some (.function snippet))
    (h : snippet.Rebinds snippet' kept removed added) :
    Edited flip tangled s
      { s with graph := (s.graph.revise f (.function snippet') removed added).touch f } :=
  edited_revise kept removed added hf (.function h.signature_eq fun _ => h.wellFormed) nofun
    h.before h.now

theorem Rebound.edited {flip tangled : Prop} {f : ObjectId} (h : Rebound f s t) :
    Edited flip tangled s t := by
  cases h with
  | same => exact .refl s
  | revise hf hrebinds _ _ => exact edited_rebinds hf hrebinds

theorem Rebound.lawful {f : ObjectId} (h : Rebound f s t) (hs : s.Lawful) : t.Lawful :=
  (h.edited : Edited False False s t).lawful hs

theorem Rebound.fresh_eq {f : ObjectId} (h : Rebound f s t) : t.fresh = s.fresh := by
  cases h <;> rfl

/-- A variable that was just made evolves the store. -/
theorem edited_valued {flip tangled : Prop} (hs : s.Lawful) (name : String) (value : Value) :
    Edited flip tangled s ⟨s.graph.insert s.fresh (.var (.ofValue name value)), s.fresh.next⟩ :=
  edited_insert hs (Variable.wellFormed_ofValue name value) nofun

theorem lawful_valued (hs : s.Lawful) (name : String) (value : Value) :
    Lawful ⟨s.graph.insert s.fresh (.var (.ofValue name value)), s.fresh.next⟩ :=
  (edited_valued hs name value : Edited False False s _).lawful hs

/-! ### Giving values -/

theorem effect_setValue {id : ObjectId} {value : Value} (hop : op.Gives s id value) :
    Effect op s (stateAfter (setValue id value) s) := by
  refine stateAfter_ask_bind .same fun v hv => ?_
  refine stateAfter_ofExcept_bind .same fun r hr => ?_
  obtain ⟨w, changed⟩ := r
  exact .value hop (Graph.getVariable_eq_ok_iff.1 hv) hr

/-- A new variable with a value is bound to a placeholder. -/
theorem effect_bindValued {f : ObjectId} (hunbound : Rebound f s t) (ht : t.Lawful)
    (placeholder name : String) (value : Value) :
    Effect (.assign f placeholder value) s (stateAfter (do
      let id ← valued name value
      bind f placeholder id
      return id) t) := by
  let made : Store := ⟨t.graph.insert t.fresh (.var (.ofValue name value)), t.fresh.next⟩
  refine stateAfter_bind_of (p := fun u => u = made) rfl ?_ ?_
  · rintro u rfl
    exact .renew trivial hunbound .same
  · rintro id u rfl
    rw [stateAfter_bind_pure]
    exact .renew trivial hunbound (rebound_bind (lawful_valued ht name value) f placeholder id)

theorem effect_assign (hs : s.Lawful) (f : ObjectId) (placeholder : String) (value : Value) :
    Effect (.assign f placeholder value) s (stateAfter (assign f placeholder value) s) := by
  refine stateAfter_ask_bind .same fun snippet hsnippet => ?_
  have hf := Graph.getFunction_eq_ok_iff.1 hsnippet
  dsimp only
  split
  · next hp =>
    cases hbound : snippet.bindings[placeholder]? with
    | none => exact effect_bindValued .same hs placeholder _ value
    | some bound =>
      -- a new variable takes the place of what is bound, unless that is a variable
      have hunbind : Effect (.assign f placeholder value) s (stateAfter (do
          let _ ← unbind f placeholder
          let id ← valued (nameForValue placeholder value) value
          bind f placeholder id
          return id) s) := by
        refine stateAfter_bind_of (p := Rebound f s) (rebound_unbind hs f placeholder)
          (fun _ ht => .rebind ht) fun _ t ht => ?_
        exact effect_bindValued ht (ht.lawful hs) placeholder _ value
      refine stateAfter_ask_bind .same fun o _ => ?_
      cases o with
      | var v =>
        show Effect _ s (stateAfter (setValue bound value >>= fun _ => pure bound) s)
        rw [stateAfter_bind_pure]
        exact effect_setValue (.assign hf hp hbound)
      | _ => exact hunbind
  · exact .same

/-! ### Links and chains -/

theorem effect_link (id other : ObjectId) :
    Effect (.link id other) s (stateAfter (link id other) s) := by
  refine stateAfter_ask_bind .same fun o ho => ?_
  change Effect _ s (stateAfter (if _ then _ else _) s)
  split
  · exact .same
  · next hfree =>
    simp only [Bool.or_eq_true, decide_eq_true_eq, not_or] at hfree
    refine stateAfter_ask_bind .same fun v hv => ?_
    exact .link rfl (Graph.getVariable_eq_ok_iff.1 hv)
      (Graph.mem_ids_of_find? (Graph.get_eq_ok_iff.1 ho)) hfree.1 hfree.2

/-- The change is passed on even if the types could not be derived. -/
theorem stateAfter_setMembers {id : ObjectId} {c : Chain} {members removed added : List ObjectId} :
    stateAfter (setMembers id c members removed added) s =
      { s with
        graph := ((s.graph.revise id (.chain { c with members }) removed added).refresh id).2.touch
          id } := by
  have hofExcept : ∀ (x : Except LinkError Unit) (t : Store),
      stateAfter (MonadExcept.ofExcept x : Edit Unit) t = t := by
    rintro (_ | _) t <;> rfl
  exact hofExcept _ _

theorem effect_setMembers {id : ObjectId} {c : Chain} {members gone came : List ObjectId}
    (hop : op.rechained? = some id) (kept : List ObjectId)
    (hc : s.graph.find? id = some (.chain c)) (hold : c.members.Perm (kept ++ gone))
    (hnow : members.Perm (kept ++ came))
    (hmembers : ∀ x ∈ members, x ∈ c.members ∨
      (x ≠ id ∧ s.graph.Callable x ∧ ¬ s.graph.reaches x id)) :
    Effect op s (stateAfter (setMembers id c members gone came) s) := by
  rw [stateAfter_setMembers]
  exact .members members kept gone came hop hc hold hnow hmembers

theorem effect_insertMember {chain : ObjectId} (hop : op.rechained? = some chain) (index : Nat)
    (member : ObjectId) : Effect op s (stateAfter (insertMember chain index member) s) := by
  refine stateAfter_ask_bind .same fun c hc => ?_
  refine stateAfter_ask_bind .same fun signature hsignature => ?_
  refine stateAfter_read .same (stateAfter_checkAcyclic chain member s) fun _ hacyclic => ?_
  obtain ⟨hne, hreaches⟩ := of_checkAcyclic hacyclic
  refine effect_setMembers hop c.members (Graph.getChain_eq_ok_iff.1 hc) ?_ ?_ fun x hx => ?_
  · exact (List.append_nil _).symm ▸ .refl _
  · refine List.perm_middle.trans ?_
    rw [List.take_append_drop]
    exact (List.perm_append_singleton member _).symm
  · obtain hx | hx := List.mem_append.1 hx
    · exact .inl (List.mem_of_mem_take hx)
    · obtain rfl | hx := List.mem_cons.1 hx
      · exact .inr ⟨hne, ⟨signature, hsignature⟩, hreaches⟩
      · exact .inl (List.mem_of_mem_drop hx)

theorem effect_append {chain : ObjectId} (hop : op.rechained? = some chain) (member : ObjectId) :
    Effect op s (stateAfter (append chain member) s) :=
  stateAfter_ask_bind .same fun c _ => effect_insertMember hop c.members.length member

theorem effect_setMember {chain : ObjectId} (hop : op.rechained? = some chain) (index : Nat)
    (member : ObjectId) : Effect op s (stateAfter (setMember chain index member) s) := by
  refine stateAfter_ask_bind .same fun signature hsignature => ?_
  refine stateAfter_read .same (stateAfter_checkAcyclic chain member s) fun _ hacyclic => ?_
  obtain ⟨hne, hreaches⟩ := of_checkAcyclic hacyclic
  refine stateAfter_ask_bind .same fun c hc => ?_
  cases hprevious : c.members[index]? with
  | none => exact .same
  | some previous =>
    obtain ⟨hlt, rfl⟩ := List.getElem?_eq_some_iff.1 hprevious
    show Effect op s (stateAfter (setMembers _ _ _ _ _ >>= fun _ => pure _) s)
    rw [stateAfter_bind_pure]
    refine effect_setMembers hop (c.members.eraseIdx index) (Graph.getChain_eq_ok_iff.1 hc) ?_ ?_
      fun x hx => ?_
    · exact (List.getElem_cons_eraseIdx_perm hlt).symm.trans
        (List.perm_append_singleton c.members[index] _).symm
    · exact (List.set_perm_cons_eraseIdx hlt member).trans
        (List.perm_append_singleton member _).symm
    · obtain hx | rfl := List.mem_or_eq_of_mem_set hx
      · exact .inl hx
      · exact .inr ⟨hne, ⟨signature, hsignature⟩, hreaches⟩

theorem effect_removeMember {chain : ObjectId} (hop : op.rechained? = some chain)
    (member : ObjectId) : Effect op s (stateAfter (removeMember chain member) s) := by
  refine stateAfter_ask_bind .same fun c hc => ?_
  by_cases hm : member ∈ c.members
  · rw [if_pos hm, stateAfter_bind_pure]
    refine effect_setMembers hop (c.members.erase member) (Graph.getChain_eq_ok_iff.1 hc) ?_ ?_
      fun x hx => .inl (List.mem_of_mem_erase hx)
    · exact (List.perm_cons_erase hm).trans (List.perm_append_singleton member _).symm
    · exact (List.append_nil _).symm ▸ .refl _
  · rw [if_neg hm]
    exact .same

/-- The value replaces one zero by the other in a constant that is bound to a placeholder. -/
def FlipsBoundZero (s : Store) (f : ObjectId) (placeholder : String) (value : Value) : Prop :=
  ∃ snippet bound, s.graph.find? f = some (.function snippet) ∧
    snippet.bindings[placeholder]? = some bound ∧ s.graph.FlipsZero bound value

end Store

namespace Operation

variable {s t : Store} {op : Operation}

/-- **Every edit has one effect.** -/
theorem effect (hs : s.Lawful) (op : Operation) : Store.Effect op s (op.perform s) := by
  cases op with
  | function code => exact Store.effect_function code
  | functionRequiring code requires => exact Store.effect_functionRequiring code requires
  | unassigned name => exact Store.effect_create trivial (.unassigned name) nofun nofun
  | declare declaration => exact Store.effect_declare declaration
  | valued name value => exact Store.effect_create trivial (.valued name value) nofun nofun
  | varying name type => exact Store.effect_create trivial (.varying name type) nofun nofun
  | text code => exact Store.effect_create trivial (.text code) nofun nofun
  | call callee arguments => exact Store.effect_call callee arguments
  | chain name anonymous members => exact Store.effect_chain name anonymous members
  | remove id => exact Store.effect_remove id
  | bind f placeholder object => exact .rebind (Store.rebound_bind hs f placeholder object)
  | unbind f placeholder => exact .rebind (Store.rebound_unbind hs f placeholder)
  | assign f placeholder value => exact Store.effect_assign hs f placeholder value
  | replace f find put => exact Store.effect_replace hs f find put
  | setValue id value => exact Store.effect_setValue .setValue
  | link id other => exact Store.effect_link id other
  | append c member => exact Store.effect_append rfl member
  | prepend c member => exact Store.effect_insertMember rfl 0 member
  | insertMember c index member => exact Store.effect_insertMember rfl index member
  | setMember c index member => exact Store.effect_setMember rfl index member
  | removeMember c member => exact Store.effect_removeMember rfl member

/-! ### How edits evolve a store -/

/-- Whether an edit puts one zero in the place of the other in a constant. -/
def FlipsZero (s : Store) : Operation → Prop
  | setValue id value => s.graph.FlipsZero id value
  | assign f placeholder value => s.FlipsBoundZero f placeholder value
  | _ => False

/-- Whether an edit gives a chain other members and tangles chains by that. -/
def Tangles (s : Store) (op : Operation) : Prop :=
  match op with
  | append c _ | prepend c _ | insertMember c _ _ | setMember c _ _ | removeMember c _ =>
    s.Tangles c (op.perform s)
  | _ => False

theorem flipsZero_of_gives {id : ObjectId} {value : Value} (hop : op.Gives s id value)
    (h : s.graph.FlipsZero id value) : op.FlipsZero s := by
  cases hop with
  | setValue => exact h
  | assign hf _ hbound => exact ⟨_, _, hf, hbound, h⟩

theorem tangles_iff :
    op.Tangles s ↔ ∃ chain, op.rechained? = some chain ∧ s.Tangles chain (op.perform s) := by
  constructor
  · intro h
    cases op <;> first | exact ⟨_, rfl, h⟩ | exact h.elim
  · rintro ⟨chain, hop, h⟩
    cases op <;> cases hop <;> exact h

end Operation

/-- An effect takes its store through a number of steps, and keeps chains derived unless it tangles
them. -/
theorem Store.Effect.edited {s t : Store} {op : Operation} (hs : s.Lawful) (h : s.Effect op t) :
    Store.Edited (op.FlipsZero s) (∃ id, op.rechained? = some id ∧ s.Tangles id t) s t := by
  cases h with
  | same => exact .refl s
  | refuse => exact .idle rfl (Nat.le_succ _)
  | make _ ho hchain _ => exact edited_insert hs ho.wellFormed fun c hc => absurd hc (hchain c)
  | call _ _ _ => exact edited_insert hs trivial nofun
  | chain _ hmembers htypes =>
    refine edited_insert hs trivial fun c hc => ?_
    obtain rfl := Object.chain.inj hc
    exact ⟨Graph.rederive_withTypes htypes, fun x hx => (hmembers x hx).mem_ids⟩
  | remove _ ho => exact edited_remove ho
  | rebind h => exact h.edited
  | replace _ hf hrebinds _ => exact edited_rebinds hf hrebinds
  | value hop hv hset =>
    exact (edited_value hs hv hset).mono (Operation.flipsZero_of_gives hop) id
  | renew _ hunbound hbound =>
    exact (hunbound.edited.trans (edited_valued (hunbound.lawful hs) _ _)).trans hbound.edited
  | link _ hv _ _ _ =>
    exact edited_revise [] _ [_] hv (.var (Nat.le_refl _) (fun _ => rfl) fun h => h) nofun
      (.refl _) (.refl _)
  | members members kept gone came hop hc hold hnow hmembers =>
    refine (edited_members members kept gone came hc hold hnow (fun x hx => ?_) rfl).mono id
      fun htangles => ⟨_, hop, htangles⟩
    exact (hmembers x hx).imp_right fun h => ⟨h.1, h.2.1.mem_ids⟩

namespace Operation

/-- **Every edit** takes its store through a number of steps, and keeps chains derived unless it
tangles them. -/
theorem edited {s : Store} (hs : s.Lawful) (op : Operation) :
    Store.Edited (op.FlipsZero s) (op.Tangles s) s (op.perform s) :=
  ((op.effect hs).edited hs).mono id tangles_iff.2

theorem evolves {s : Store} (hs : s.Lawful) (op : Operation) :
    Store.Evolves (op.FlipsZero s) s (op.perform s) :=
  (op.edited hs).toEvolves

end Operation

end ShaderLink
