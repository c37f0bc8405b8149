import ShaderLink.Proofs.Graph.Change
import ShaderLink.Proofs.Store.Failure
import ShaderLink.Proofs.Store.Moves

/-!
# The roles of identifiers

An identifier is given to one object, and whatever becomes of that object, it stays a variable, a
function, or what else it is. So there is a table of **roles**, and what it says of an identifier
holds in all graphs, whether or not the object is there at the time (`Session.InRoles`). The table
grows with the identifiers that are handed out, and is never changed for those that were
(`Session.Reachable.exists_inRoles`).

The members of a chain and the callee of a call could be called when they were taken on, so the table
has them as functions or chains ever after; and whatever an object carries a change of was handed
out, so nothing new takes its place. The record of references keeps to the table as well, also with
what is left in it of objects that were replaced.

This is why a change of a variable never reaches a chain (`Graph.InRoles.find?_touch`).
-/

namespace ShaderLink

open Relation

/-- What an object is. -/
inductive Role where
  | var
  | function
  | chain
  | text
  | call

/-- Whether objects in a role can be called. -/
def Role.IsCallable (r : Role) : Prop := r = .function ∨ r = .chain

/-! ### Objects -/

namespace Object

/-- The role of an object. -/
def role : Object → Role
  | var _ => .var
  | function _ => .function
  | chain _ => .chain
  | text _ => .text
  | call _ => .call

/-- Whether an object calls another one. -/
def Calls : Object → ObjectId → Prop
  | chain c, x => x ∈ c.members
  | call c, x => x = c.callee
  | var _, _ | function _, _ | text _, _ => False

/-- **An object in its role**, where the identifiers below a number were handed out. -/
structure InRole (roles : ObjectId → Role) (n : Nat) (x : ObjectId) (o : Object) : Prop where
  lt : x.index < n
  role : roles x = o.role
  carried : ∀ y, o.Carries y → y.index < n
  called : ∀ y, o.Calls y → (roles y).IsCallable

variable {roles roles' : ObjectId → Role} {n n' : Nat} {x y : ObjectId} {o o' : Object}

/-- What has a signature is in a role that can be called, and nothing else is. -/
theorem isCallable_role_iff : o.role.IsCallable ↔ o.signature? ≠ none := by
  cases o <;> simp [role, Role.IsCallable, signature?]

theorem Calls.carries (h : o.Calls y) : o.Carries y := by
  cases o with
  | chain c => exact h
  | call c => exact List.mem_cons.2 (.inl h)
  | _ => exact h.elim

/-- A table may grow. -/
theorem InRole.mono (h : o.InRole roles n x) (hn : n ≤ n')
    (hroles : ∀ y, y.index < n → roles' y = roles y) : o.InRole roles' n' x where
  lt := Nat.lt_of_lt_of_le h.lt hn
  role := (hroles x h.lt).trans h.role
  carried := fun y hy => Nat.lt_of_lt_of_le (h.carried y hy) hn
  called := fun y hy => hroles y (h.carried y hy.carries) ▸ h.called y hy

theorem InRole.retyped (h : o.InRole roles n x) (hr : o.Retyped o') : o'.InRole roles n x := by
  cases hr with
  | same => exact h
  | chain => exact { h with }

/-- A variable that takes a value stays linked as it is. -/
theorem InRole.setValue {v w : Variable} {value : Value} {changed : Bool}
    (h : (Object.var v).InRole roles n x) (hset : v.setValue value = .ok (w, changed)) :
    (Object.var w).InRole roles n x where
  lt := h.lt
  role := h.role
  carried := fun y hy => h.carried y ((Variable.link_of_setValue hset).symm.trans hy)
  called := nofun

theorem InRole.altered (h : o.InRole roles n x) (ha : o.Altered o') : o'.InRole roles n x := by
  cases ha with
  | setValue hset => exact h.setValue hset
  | requiring s requires => exact { h with }

/-- What is new carries no changes. -/
theorem New.not_carries (h : o.New) : ¬ o.Carries y := by
  cases h <;> simp [Carries, Variable.unassigned, Variable.ofDeclaration, Variable.ofValue,
    Variable.varying, Chain.empty]

/-- The next identifier gets a role, and those that were handed out keep theirs. -/
theorem update_of_lt {r : Role} (hy : y.index < x.index) : Function.update roles x r y = roles y :=
  Function.update_of_ne (by rintro rfl; exact Nat.lt_irrefl _ hy) _ _

/-- What is made under the next identifier is in its role once the table says so. -/
theorem InRole.made (hcarried : ∀ y, o.Carries y → y.index < x.index)
    (hcalled : ∀ y, o.Calls y → (roles y).IsCallable) :
    o.InRole (Function.update roles x o.role) (x.index + 1) x where
  lt := Nat.lt_succ_self _
  role := Function.update_self ..
  carried := fun y hy => Nat.lt_succ_of_lt (hcarried y hy)
  called := fun y hy => update_of_lt (hcarried y hy.carries) ▸ hcalled y hy

end Object

/-! ### Graphs -/

namespace Graph

/-- **A graph whose objects are in their roles.** Whatever is on record for a chain can be called. -/
structure InRoles (roles : ObjectId → Role) (n : Nat) (g : Graph) : Prop where
  object : ∀ x o, g.find? x = some o → o.InRole roles n x
  record : ∀ x y, 0 < g.referrers.count x y →
    y.index < n ∧ (roles y = .chain → x.index < n ∧ (roles x).IsCallable)

variable {g g' : Graph} {roles roles' : ObjectId → Role} {n n' : Nat} {id x y : ObjectId}
  {o o' : Object} {removed added : List ObjectId}

theorem InRoles.mono (h : g.InRoles roles n) (hn : n ≤ n')
    (hroles : ∀ y, y.index < n → roles' y = roles y) : g.InRoles roles' n' where
  object := fun x o ho => (h.object x o ho).mono hn hroles
  record := fun x y hxy => by
    obtain ⟨hy, hchain⟩ := h.record x y hxy
    refine ⟨Nat.lt_of_lt_of_le hy hn, fun hrole => ?_⟩
    obtain ⟨hx, hcallable⟩ := hchain (hroles y hy ▸ hrole)
    exact ⟨Nat.lt_of_lt_of_le hx hn, hroles x hx ▸ hcallable⟩

/-- What an object in its role refers to may be recorded. -/
theorem record_of_inRole (h : o.InRole roles n y) (hx : x ∈ o.references) :
    y.index < n ∧ (roles y = .chain → x.index < n ∧ (roles x).IsCallable) := by
  refine ⟨h.lt, fun hrole => ?_⟩
  rw [h.role] at hrole
  cases o with
  | chain c => exact ⟨h.carried x hx, h.called x hx⟩
  | _ => cases hrole

/-- The roles of a graph whose objects come from another, where nothing is recorded besides. -/
theorem InRoles.of_retyped (h : g.InRoles roles n)
    (hobject : ∀ x o', g'.find? x = some o' → ∃ o, g.find? x = some o ∧ o.Retyped o')
    (hrecord : ∀ x y, 0 < g'.referrers.count x y → 0 < g.referrers.count x y) :
    g'.InRoles roles n where
  object := fun x o' ho' => by
    obtain ⟨o, ho, hr⟩ := hobject x o' ho'
    exact (h.object x o ho).retyped hr
  record := fun x y hxy => h.record x y (hrecord x y hxy)

theorem InRoles.touch (h : g.InRoles roles n) (id : ObjectId) : (g.touch id).InRoles roles n :=
  h.of_retyped (fun _ _ => find?_of_touch) fun _ _ hxy => by rwa [referrers_touch] at hxy

theorem InRoles.refresh (h : g.InRoles roles n) (id : ObjectId) :
    (g.refresh id).2.InRoles roles n := by
  obtain hsame | ⟨c, c', hc, hr, hset⟩ := refresh_eq g id
  · rwa [hsame]
  · rw [hset]
    refine h.of_retyped (fun x o' ho' => ?_) fun _ _ hxy => hxy
    by_cases hx : id = x
    · subst hx
      rw [find?_setObject_self hc] at ho'
      exact ⟨_, hc, Option.some.inj ho' ▸ hr⟩
    · exact ⟨o', find?_setObject_of_ne hx ▸ ho', .same o'⟩

theorem InRoles.insert (h : g.InRoles roles n) (ho : o.InRole roles n id) :
    (g.insert id o).InRoles roles n where
  object := fun x o' ho' => by
    obtain ⟨rfl, rfl⟩ | ⟨-, ho'⟩ := find?_insert_cases ho'
    · exact ho
    · exact h.object x o' ho'
  record := fun x y hxy => by
    rw [referrers_insert, count_addReferences] at hxy
    by_cases hold : 0 < g.referrers.count x y
    · exact h.record x y hold
    · -- it is the new object that refers to something
      by_cases hy : id = y
      · subst hy
        rw [if_pos rfl] at hxy
        exact record_of_inRole ho (List.count_pos_iff.1 (by omega))
      · rw [if_neg hy] at hxy
        exact absurd hxy hold

theorem InRoles.setObject (h : g.InRoles roles n) (hx : id ∈ g.ids) (ho : o.InRole roles n id) :
    (g.setObject id o).InRoles roles n where
  object := fun x o' ho' => by
    by_cases hx : id = x
    · subst hx
      obtain ⟨old, hold⟩ := mem_ids_iff.1 ‹_›
      rw [find?_setObject_self hold] at ho'
      exact Option.some.inj ho' ▸ ho
    · exact h.object x o' (find?_setObject_of_ne hx ▸ ho')
  record := h.record

/-- A revised object is recorded with what it refers to now. -/
theorem InRoles.revise (h : g.InRoles roles n) (hid : id ∈ g.ids) (ho : o.InRole roles n id)
    (hadded : ∀ x ∈ added, x ∈ o.references) : (g.revise id o removed added).InRoles roles n where
  object := fun x o' ho' => by
    refine (h.setObject hid ho).object x o' ?_
    rwa [Graph.revise, find?_addReferences, find?_removeReferences] at ho'
  record := fun x y hxy => by
    rw [count_revise] at hxy
    by_cases hold : 0 < g.referrers.count x y
    · exact h.record x y hold
    · by_cases hy : id = y
      · subst hy
        rw [if_pos rfl, if_pos rfl] at hxy
        exact record_of_inRole ho (hadded x (List.count_pos_iff.1 (by omega)))
      · rw [if_neg hy, if_neg hy] at hxy
        exact absurd hxy hold

theorem InRoles.discard (h : g.InRoles roles n) (id : ObjectId) (o : Object) :
    (g.discard id o).InRoles roles n := by
  refine h.of_retyped (fun x o' ho' => ⟨o', ?_, .same o'⟩) fun x y hxy => ?_
  · by_cases hx : id = x
    · subst hx
      rw [find?_discard_self] at ho'
      cases ho'
    · exact find?_discard_of_ne hx ▸ ho'
  · have hcount : (g.discard id o).referrers.count x y =
        g.referrers.count x y - if id = y then o.references.count x else 0 :=
      count_removeReferences x y
    omega

/-- A variable is linked to what is there. -/
theorem InRoles.link {v : Variable} (h : g.InRoles roles n) (hv : g.find? id = some (.var v))
    (hx : x ∈ g.ids) (removed : List ObjectId) :
    (g.revise id (.var { v with link := some x }) removed [x]).InRoles roles n := by
  obtain ⟨o, ho⟩ := mem_ids_iff.1 hx
  have hlinked : (Object.var { v with link := some x }).InRole roles n id :=
    { h.object id _ hv with
      carried := fun y hy => Option.some.inj hy ▸ (h.object x o ho).lt
      called := nofun }
  exact h.revise (mem_ids_of_find? hv) hlinked fun y hy => hy

/-- What can be called is in such a role, and was handed out. -/
theorem InRoles.isCallable (h : g.InRoles roles n) (hx : g.Callable x) :
    x.index < n ∧ (roles x).IsCallable := by
  obtain ⟨s, hs⟩ := hx
  obtain ⟨o, ho, hsig⟩ := Option.bind_eq_some_iff.1 (callable_eq_ok_iff.1 hs)
  have hinRole := h.object x o ho
  refine ⟨hinRole.lt, hinRole.role ▸ Object.isCallable_role_iff.2 ?_⟩
  rw [hsig]
  nofun

theorem InRoles.not_isCallable (h : g.InRoles roles n) (ho : g.find? x = some o)
    (hsig : o.signature? = none) : ¬ (roles x).IsCallable := by
  rw [(h.object x o ho).role, Object.isCallable_role_iff]
  exact not_not.2 hsig

/-! ### Changes of what cannot be called -/

/-- Of what carries a change, only chains can be called, and they call what changes. -/
theorem InRoles.of_mem_carriers (h : g.InRoles roles n) (hy : y ∈ g.carriers x)
    (hcallable : (roles y).IsCallable) :
    (∃ c, g.find? y = some (.chain c)) ∧ (roles x).IsCallable := by
  obtain ⟨hreferrer, hcarries⟩ := mem_carriers_iff.1 hy
  unfold carries at hcarries
  split at hcarries
  · next c hc =>
    have hrecord := (h.record x y (mem_referrersOf_iff.1 hreferrer)).2
    exact ⟨⟨c, hc⟩, (hrecord (h.object y _ hc).role).2⟩
  · next hc => exact absurd hcallable (h.not_isCallable hc rfl)
  · next hv => exact absurd hcallable (h.not_isCallable hv rfl)
  · cases hcarries

/-- A change of something that cannot be called shows in nothing that can. -/
theorem InRoles.not_isCallable_of_affected (h : g.InRoles roles n) (hid : ¬ (roles id).IsCallable)
    (hx : x ∈ g.affected id) : ¬ (roles x).IsCallable :=
  (Traversal.reachable_of_mem_preorder hx).induction (p := fun x => ¬ (roles x).IsCallable)
    (fun _ hr => List.mem_singleton.1 hr ▸ hid) fun _ ha _ hb hcallable =>
      ha (h.of_mem_carriers (List.mem_reverse.1 hb) hcallable).2

/-- **A touch of what cannot be called** leaves all objects as they are. -/
theorem InRoles.find?_touch (h : g.InRoles roles n) (hid : ¬ (roles id).IsCallable) (x : ObjectId) :
    (g.touch id).find? x = g.find? x := by
  cases ho : g.find? x with
  | none =>
    have habsent := (retyping_touch g id).absent x (find?_eq_none_iff.1 ho)
    exact find?_eq_none_iff.2 habsent
  | some o =>
    by_cases hchain : ∃ c, o = .chain c
    · -- a chain is not affected
      obtain ⟨c, rfl⟩ := hchain
      have hx : x ∉ g.affected id := fun hx =>
        h.not_isCallable_of_affected hid hx (.inr (h.object x _ ho).role)
      rw [find?_congr (getElem?_touch_of_not_affected hx), ho]
    · exact find?_touch_of_not_chain id ho fun c hc => hchain ⟨c, hc⟩

end Graph

/-! ### Moves -/

namespace Store

variable {roles roles' : ObjectId → Role} {s t u : Store} {o : Object}
  {relinked removed : ObjectId → Prop}

/-- A store whose objects are in their roles. -/
def InRoles (roles : ObjectId → Role) (s : Store) : Prop := s.graph.InRoles roles s.fresh.index

/-- A table that the objects of a store are in, and that says the same of whatever was handed out
before. -/
structure Extends (roles roles' : ObjectId → Role) (s t : Store) : Prop where
  fresh : s.fresh.index ≤ t.fresh.index
  roles : ∀ x, x.index < s.fresh.index → roles' x = roles x
  inRoles : t.InRoles roles'

theorem Extends.trans {roles'' : ObjectId → Role} (h : Extends roles roles' s t)
    (h' : Extends roles' roles'' t u) : Extends roles roles'' s u where
  fresh := Nat.le_trans h.fresh h'.fresh
  roles := fun x hx => (h'.roles x (Nat.lt_of_lt_of_le hx h.fresh)).trans (h.roles x hx)
  inRoles := h'.inRoles

/-- The table stays if no identifier is handed out. -/
theorem extends_of_graph {g : Graph} (h : g.InRoles roles s.fresh.index) :
    Extends roles roles s { s with graph := g } :=
  ⟨Nat.le_refl _, fun _ _ => rfl, h⟩

/-- The table is extended by the role of what is made. -/
theorem extends_of_insert (h : s.InRoles roles)
    (hcarried : ∀ y, o.Carries y → y.index < s.fresh.index)
    (hcalled : ∀ y, o.Calls y → (roles y).IsCallable) :
    Extends roles (Function.update roles s.fresh o.role) s
      ⟨s.graph.insert s.fresh o, s.fresh.next⟩ where
  fresh := Nat.le_succ _
  roles := fun _ => Object.update_of_lt
  inRoles := (h.mono (Nat.le_succ _) fun _ => Object.update_of_lt).insert
    (.made hcarried hcalled)

theorem Mild.exists_extends (hstep : Mild s t) (h : s.InRoles roles) :
    ∃ roles', Extends roles roles' s t := by
  cases hstep with
  | @function id f f' kept removed added hf hsig hold hnow =>
    have ho : (Object.function f').InRole roles s.fresh.index id := { h.object id _ hf with }
    have hadded : ∀ x ∈ added, x ∈ (Object.function f').references := fun x hx =>
      hnow.mem_iff.2 (List.mem_append_right kept hx)
    exact ⟨roles, extends_of_graph ((h.revise (Graph.mem_ids_of_find? hf) ho hadded).touch id)⟩
  | @unlinked v habsent hlink =>
    refine ⟨_, extends_of_insert h (fun y hy => ?_) nofun⟩
    rw [show v.link = some y from hy] at hlink
    cases hlink

theorem exists_extends_of_mild (hsteps : ReflTransGen Mild s t) (h : s.InRoles roles) :
    ∃ roles', Extends roles roles' s t := by
  induction hsteps with
  | refl => exact ⟨roles, extends_of_graph h⟩
  | tail _ hstep ih =>
    obtain ⟨roles₁, hroles₁⟩ := ih
    obtain ⟨roles₂, hroles₂⟩ := hstep.exists_extends hroles₁.inRoles
    exact ⟨roles₂, hroles₁.trans hroles₂⟩

/-- **Every move keeps objects in their roles**, and the table to what it says. -/
theorem Move.exists_extends (hmove : Move relinked removed s t) (h : s.InRoles roles) :
    ∃ roles', Extends roles roles' s t := by
  cases hmove with
  | mild hsteps => exact exists_extends_of_mild hsteps h
  | refuse =>
    exact ⟨roles, Nat.le_succ _, fun _ _ => rfl, h.mono (Nat.le_succ _) fun _ _ => rfl⟩
  | make habsent ho =>
    exact ⟨_, extends_of_insert h (fun y hy => absurd hy ho.not_carries) fun y hy =>
      absurd hy.carries ho.not_carries⟩
  | @call c habsent hparts hcheck =>
    refine ⟨_, extends_of_insert h (fun y hy => ?_) fun y hy => ?_⟩
    · obtain ⟨o, ho⟩ := Graph.mem_ids_iff.1 (hparts y hy)
      exact (h.object y o ho).lt
    · obtain rfl : y = c.callee := hy
      unfold Graph.checkCall at hcheck
      cases hsig : s.graph.signature? c.callee with
      | none =>
        rw [hsig] at hcheck
        cases hcheck
      | some signature => exact (h.isCallable ⟨signature, Graph.callable_eq_ok_iff.2 hsig⟩).2
  | chain habsent hmembers htypes =>
    exact ⟨_, extends_of_insert h (fun y hy => (h.isCallable (hmembers y hy)).1) fun y hy =>
      (h.isCallable (hmembers y hy)).2⟩
  | @value id v w value changed hv hset =>
    have hw := h.setObject (Graph.mem_ids_of_find? hv) ((h.object id _ hv).setValue hset)
    refine ⟨roles, extends_of_graph ?_⟩
    cases changed with
    | true => exact hw.touch id
    | false => exact hw.of_retyped (fun x o ho => ⟨o, ho, .same o⟩) fun _ _ hxy => hxy
  | @link id other v hid hv hother =>
    exact ⟨roles, extends_of_graph ((Graph.InRoles.link h hv hother v.link.toList).touch id)⟩
  | @members id c members kept gone came hc hold hnow hmembers =>
    have hcallable : ∀ x ∈ members, x.index < s.fresh.index ∧ (roles x).IsCallable := fun x hx =>
      (hmembers x hx).elim (fun hx => ⟨(h.object id _ hc).carried x hx, (h.object id _ hc).called x hx⟩)
        h.isCallable
    have ho : (Object.chain { c with members }).InRole roles s.fresh.index id :=
      { h.object id _ hc with
        carried := fun x hx => (hcallable x hx).1
        called := fun x hx => (hcallable x hx).2 }
    have hcame : ∀ x ∈ came, x ∈ (Object.chain { c with members }).references := fun x hx =>
      hnow.mem_iff.2 (List.mem_append_right kept hx)
    exact ⟨roles, extends_of_graph
      (((h.revise (Graph.mem_ids_of_find? hc) ho hcame).refresh id).touch id)⟩
  | @remove id o hid ho => exact ⟨roles, extends_of_graph ((h.discard id o).touch id)⟩

end Store

/-! ### Sessions -/

namespace Session

variable {roles roles' : ObjectId → Role} {σ : Session} {k : Nat}

/-- **A session whose objects are in their roles**, in all graphs and outside of them. -/
structure InRoles (roles : ObjectId → Role) (σ : Session) : Prop where
  graph : ∀ k, (σ.graphs k).InRoles roles σ.fresh.index
  loose : ∀ p ∈ σ.loose, p.2.InRole roles σ.fresh.index p.1

theorem inRoles_empty : empty.InRoles roles where
  graph := fun k => ⟨fun x o ho => by simp [Session.empty, Graph.empty, Graph.find?] at ho,
    fun x y hxy => absurd hxy (Nat.lt_irrefl 0)⟩
  loose := fun p hp => absurd hp List.not_mem_nil

theorem InRoles.setStore {s : Store} (h : σ.InRoles roles)
    (hs : Store.Extends roles roles' (σ.store k) s) : (σ.setStore k s).InRoles roles' where
  graph := fun j => by
    by_cases hj : j = k
    · subst hj
      rw [graphs_setStore]
      exact hs.inRoles
    · have hgraph : (σ.setStore k s).graphs j = σ.graphs j := Function.update_of_ne hj ..
      rw [hgraph]
      exact (h.graph j).mono hs.fresh hs.roles
  loose := fun p hp => (h.loose p hp).mono hs.fresh hs.roles

theorem InRoles.addLoose {l : List (ObjectId × Object)} (h : σ.InRoles roles)
    (hl : ∀ p ∈ l, p.2.InRole roles σ.fresh.index p.1) :
    InRoles roles { σ with loose := l ++ σ.loose } where
  graph := h.graph
  loose := fun p hp => (List.mem_append.1 hp).elim (hl p) (h.loose p)

/-- **Actions keep objects in their roles.** -/
theorem InRoles.perform (h : σ.InRoles roles) (hσ : σ.Lawful) {a : Action} (ha : a.Possible σ) :
    ∃ roles', (a.perform σ).InRoles roles' := by
  cases a with
  | edit k op =>
    obtain ⟨roles', hroles'⟩ := (op.move (hσ.store k)).exists_extends (h.graph k)
    exact ⟨roles', h.setStore hroles'⟩
  | add k id o =>
    refine ⟨roles, h.setStore ?_⟩
    obtain hsame | ⟨o', hr, hinsert⟩ := Store.stateAfter_add id o (σ.store k)
    · rw [hsame]
      exact Store.extends_of_graph (h.graph k)
    · rw [hinsert]
      exact Store.extends_of_graph ((h.graph k).insert ((h.loose _ ha).retyped hr))
  | make o =>
    have hnew : ∀ y, ¬ o.Carries y := fun _ => Object.New.not_carries ha
    refine ⟨Function.update roles σ.fresh o.role,
      fun k => (h.graph k).mono (Nat.le_succ _) fun _ => Object.update_of_lt, fun p hp => ?_⟩
    obtain rfl | hp := List.mem_cons.1 hp
    · exact .made (fun y hy => absurd hy (hnew y)) fun y hy => absurd hy.carries (hnew y)
    · exact (h.loose p hp).mono (Nat.le_succ _) fun _ => Object.update_of_lt
  | copy k id =>
    refine ⟨roles, h.addLoose fun p hp => ?_⟩
    simp only [Option.mem_toList, Option.map_eq_some_iff] at hp
    obtain ⟨o, ho, rfl⟩ := hp
    exact (h.graph k).object id o ho
  | alter id old new =>
    refine ⟨roles, h.addLoose (l := [(id, new)]) fun p hp => ?_⟩
    obtain rfl := List.mem_singleton.1 hp
    exact (h.loose _ ha.1).altered ha.2
  | assignVarying k m varying expression =>
    have hmove : Store.Move (fun _ => True) (fun _ => True) (σ.store k)
        (stateAfter (m.assignVarying varying expression) (σ.store k)) :=
      m.move_assignVarying (hσ.store k) trivial expression
    obtain ⟨roles', hroles'⟩ := hmove.exists_extends (h.graph k)
    have hset := h.setStore hroles'
    -- only the main codes differ from those of the edited session
    rw [perform_assignVarying]
    exact ⟨roles', hset.graph, hset.loose⟩
  | _ => exact ⟨roles, h.graph, h.loose⟩

/-- **The objects of a reachable session are in their roles.** -/
theorem Reachable.exists_inRoles (h : σ.Reachable) : ∃ roles, σ.InRoles roles := by
  induction h with
  | empty => exact ⟨fun _ => .text, inRoles_empty⟩
  | act h a ha ih =>
    obtain ⟨roles, hroles⟩ := ih
    exact hroles.perform h.lawful ha

end Session

end ShaderLink
