import Mathlib.Logic.Function.Basic
import ShaderLink.Proofs.Store.Effects
import ShaderLink.Stage.Main

/-!
# Sessions

Graphs do not live alone: identifiers come from one counter, and an object that was made on its own,
taken out of a graph or copied from one can be added to another. A **session** holds any number of
graphs, the counter, the objects at hand that are outside of any graph, and the main codes that
stages are made of (`Session`). Whatever can be done is an `Action`, and what actions lead to from
nothing is `Session.Reachable`.

The graphs of a reachable session hold well-formed objects under identifiers that were handed out
(`Reachable.lawful`). An action takes each graph through a number of steps, unless it adds an object
in the place of one that is there (`Action.steps`).
-/

namespace ShaderLink

/-- Assigning a varying has the effect of linking it. -/
theorem StageMain.effect_assignVarying {s : Store} (m : StageMain) (varying expression : ObjectId) :
    Store.Effect (.link varying expression) s
      (stateAfter (m.assignVarying varying expression) s) := by
  refine Store.stateAfter_ask_bind .same fun v _ => ?_
  dsimp only
  split
  · show Store.Effect _ s (stateAfter (Store.link varying expression >>= fun _ => pure _) s)
    rw [stateAfter_bind_pure]
    exact Store.effect_link varying expression
  · exact .same

theorem StageMain.edited_assignVarying {s : Store} (hs : s.Lawful) (m : StageMain)
    (varying expression : ObjectId) :
    Store.Edited False False s (stateAfter (m.assignVarying varying expression) s) :=
  ((m.effect_assignVarying varying expression).edited hs).mono id nofun

theorem StageMain.evolves_assignVarying {s : Store} (hs : s.Lawful) (m : StageMain)
    (varying expression : ObjectId) :
    Store.Evolves False s (stateAfter (m.assignVarying varying expression) s) :=
  (m.edited_assignVarying hs varying expression).toEvolves

/-- What can be done to an object outside of any graph. -/
inductive Object.Altered : Object → Object → Prop where
  | setValue {v w : Variable} {value : Value} {changed : Bool}
      (h : v.setValue value = .ok (w, changed)) : Altered (.var v) (.var w)
  | requiring (s : Snippet) (requires : List ObjectId) :
      Altered (.function s) (.function { s with requires })

theorem Object.Altered.wellFormed {o o' : Object} (h : o.Altered o') (ho : o.WellFormed) :
    o'.WellFormed := by
  cases h with
  | setValue h => exact Variable.WellFormed.setValue ho h
  | requiring s requires => exact { (ho : s.WellFormed) with }

theorem Object.Altered.isVariable_iff {o o' : Object} (h : o.Altered o') :
    o.IsVariable ↔ o'.IsVariable := by
  cases h with
  | setValue h => exact ⟨fun _ => ⟨_, rfl⟩, fun _ => ⟨_, rfl⟩⟩
  | requiring s requires => exact iff_of_false not_isVariable_function not_isVariable_function

/-- Graphs by number, the next identifier, and the objects and main codes at hand. -/
structure Session where
  graphs : Nat → Graph
  fresh : ObjectId
  loose : List (ObjectId × Object)
  mains : List StageMain

namespace Session

variable {σ : Session} {k : Nat}

/-- The session in which nothing was done. -/
def empty : Session := ⟨fun _ => .empty, ⟨1⟩, [], []⟩

/-- A graph with the identifier that its next object will get. -/
def store (σ : Session) (k : Nat) : Store := ⟨σ.graphs k, σ.fresh⟩

/-- The session after an edit of one graph. -/
def setStore (σ : Session) (k : Nat) (s : Store) : Session :=
  { σ with graphs := Function.update σ.graphs k s.graph, fresh := s.fresh }

@[simp] theorem graphs_setStore {s : Store} : (σ.setStore k s).graphs k = s.graph :=
  Function.update_self ..

theorem store_setStore {s : Store} : (σ.setStore k s).store k = s := by
  rw [store, graphs_setStore]
  rfl

/-- Something that can be done. -/
inductive Action where
  /-- An edit of a graph. -/
  | edit (k : Nat) (op : Operation)
  /-- Adding an object at hand to a graph. -/
  | add (k : Nat) (id : ObjectId) (object : Object)
  /-- Making an object on its own. -/
  | make (object : Object)
  /-- Copying an object of a graph. -/
  | copy (k : Nat) (id : ObjectId)
  /-- Changing an object at hand. -/
  | alter (id : ObjectId) (old new : Object)
  /-- Reading the main code of a stage. -/
  | readMain (code : String)
  /-- Attaching something to a main code. -/
  | attach (m : StageMain) (a : Attachment)
  /-- Assigning a builtin output at the end of a main code. -/
  | assign (m : StageMain) (target : String) (expression : ObjectId)
  /-- Assigning a varying of a graph at the end of a main code. -/
  | assignVarying (k : Nat) (m : StageMain) (varying expression : ObjectId)

namespace Action

/-- Whether everything that an action needs is at hand. -/
def Possible (σ : Session) : Action → Prop
  | edit _ _ | copy _ _ | readMain _ => True
  | add _ id object => (id, object) ∈ σ.loose
  | make object => object.New
  | alter id old new => (id, old) ∈ σ.loose ∧ old.Altered new
  | attach m _ | assign m _ _ | assignVarying _ m _ _ => m ∈ σ.mains

/-- The session after an action. -/
def perform (σ : Session) : Action → Session
  | edit k op => σ.setStore k (op.perform (σ.store k))
  | add k id object => σ.setStore k (stateAfter (Store.add id object) (σ.store k))
  | make object => { σ with fresh := σ.fresh.next, loose := (σ.fresh, object) :: σ.loose }
  | copy k id =>
    { σ with loose := (((σ.graphs k).find? id).map (id, ·)).toList ++ σ.loose }
  | alter id _ new => { σ with loose := (id, new) :: σ.loose }
  | readMain code => { σ with mains := (StageMain.ofCode code).toOption.toList ++ σ.mains }
  | attach m a => { σ with mains := m.attach a :: σ.mains }
  | assign m target expression =>
    { σ with mains := (m.assign target expression).toOption.toList ++ σ.mains }
  | assignVarying k m varying expression =>
    match (m.assignVarying varying expression).run (σ.store k) with
    | .ok m' s => { σ.setStore k s with mains := m' :: σ.mains }
    | .error _ s => σ.setStore k s

/-- Whether an action adds an object under an identifier to a graph. -/
def Adds (k : Nat) (x : ObjectId) (a : Action) : Prop := ∃ o, a = .add k x o

/-- Whether an action puts one zero in the place of the other in a constant of a graph. -/
def FlipsZero (σ : Session) (k : Nat) (a : Action) : Prop :=
  ∃ op, a = .edit k op ∧ op.FlipsZero (σ.store k)

/-- Whether an action gives a chain of a graph other members and tangles chains by that. -/
def Tangles (σ : Session) (k : Nat) (a : Action) : Prop :=
  ∃ op, a = .edit k op ∧ op.Tangles (σ.store k)

theorem not_adds_edit {j : Nat} {x : ObjectId} {op : Operation} : ¬ (edit j op).Adds k x := by
  rintro ⟨o, ho⟩
  cases ho

theorem not_flipsZero_edit {op : Operation} (h : ¬ op.FlipsZero (σ.store k)) :
    ¬ (edit k op).FlipsZero σ k := by
  rintro ⟨op', hop, hflips⟩
  cases hop
  exact h hflips

end Action

/-- What actions lead to from nothing. -/
inductive Reachable : Session → Prop where
  | empty : Reachable empty
  | act {σ : Session} (h : Reachable σ) (a : Action) (ha : a.Possible σ) : Reachable (a.perform σ)

/-- What actions that keep to a rule lead to from nothing. -/
inductive ReachableBy (rule : Session → Action → Prop) : Session → Prop where
  | empty : ReachableBy rule empty
  | act {σ : Session} (h : ReachableBy rule σ) (a : Action) (ha : a.Possible σ) (hrule : rule σ a) :
      ReachableBy rule (a.perform σ)

theorem ReachableBy.reachable {rule : Session → Action → Prop} (h : ReachableBy rule σ) :
    Reachable σ := by
  induction h with
  | empty => exact .empty
  | act _ a ha _ ih => exact .act ih a ha

theorem ReachableBy.mono {rule rule' : Session → Action → Prop}
    (hrule : ∀ σ a, rule σ a → rule' σ a) (h : ReachableBy rule σ) : ReachableBy rule' σ := by
  induction h with
  | empty => exact .empty
  | act _ a ha hkeeps ih => exact .act ih a ha (hrule _ a hkeeps)

/-- The session after edits of one graph, one after the other. -/
def edited (σ : Session) (k : Nat) (ops : List Operation) : Session :=
  ops.foldl (fun σ op => (Action.edit k op).perform σ) σ

theorem ReachableBy.edited {rule : Session → Action → Prop} (h : ReachableBy rule σ)
    {ops : List Operation} (hrule : ∀ op ∈ ops, ∀ σ, rule σ (.edit k op)) :
    ReachableBy rule (σ.edited k ops) := by
  induction ops generalizing σ with
  | nil => exact h
  | cons op ops ih =>
    have hfirst := h.act (.edit k op) trivial (hrule op List.mem_cons_self σ)
    exact ih hfirst fun op hop => hrule op (List.mem_cons_of_mem _ hop)

/-- A session of lawful stores and well-formed objects at hand. -/
structure Lawful (σ : Session) : Prop where
  store : ∀ k, (σ.store k).Lawful
  loose : ∀ p ∈ σ.loose, p.2.WellFormed ∧ p.1.index < σ.fresh.index

theorem lawful_empty : Lawful empty where
  store := fun _ => ⟨fun x o ho => by simp [store, empty, Graph.empty, Graph.find?] at ho,
    fun x hx => by simp [store, empty, Graph.empty, Graph.ids] at hx⟩
  loose := fun p hp => absurd hp List.not_mem_nil

theorem Lawful.setStore {s : Store} (h : σ.Lawful) (hs : s.Lawful)
    (hfresh : σ.fresh.index ≤ s.fresh.index) : (σ.setStore k s).Lawful where
  store := fun j => by
    by_cases hj : j = k
    · subst hj
      simpa [Session.store, Session.setStore] using hs
    · have hst := h.store j
      refine ⟨?_, fun x hx => Nat.lt_of_lt_of_le (hst.bounded x ?_) hfresh⟩
      · simpa [Session.store, Session.setStore, hj] using hst.wellFormed
      · simpa [Session.store, Session.setStore, hj] using hx
  loose := fun p hp => ⟨(h.loose p hp).1, Nat.lt_of_lt_of_le (h.loose p hp).2 hfresh⟩

/-- Handing out an identifier for an object at hand. -/
theorem Lawful.make {o : Object} (h : σ.Lawful) (ho : o.WellFormed) :
    Lawful { σ with fresh := σ.fresh.next, loose := (σ.fresh, o) :: σ.loose } where
  store := fun k =>
    ⟨(h.store k).wellFormed, fun x hx => Nat.lt_succ_of_lt ((h.store k).bounded x hx)⟩
  loose := fun p hp => by
    obtain rfl | hp := List.mem_cons.1 hp
    · exact ⟨ho, Nat.lt_succ_self _⟩
    · exact ⟨(h.loose p hp).1, Nat.lt_succ_of_lt (h.loose p hp).2⟩

theorem Lawful.addLoose {l : List (ObjectId × Object)} (h : σ.Lawful)
    (hl : ∀ p ∈ l, p.2.WellFormed ∧ p.1.index < σ.fresh.index) :
    Lawful { σ with loose := l ++ σ.loose } where
  store := h.store
  loose := fun p hp => (List.mem_append.1 hp).elim (hl p) (h.loose p)

/-- An object added to a store leaves it lawful, also in the place of another. -/
theorem lawful_add {s : Store} {id : ObjectId} {o : Object} (hs : s.Lawful) (ho : o.WellFormed)
    (hid : id.index < s.fresh.index) :
    (stateAfter (Store.add id o) s).Lawful ∧ (stateAfter (Store.add id o) s).fresh = s.fresh := by
  obtain h | ⟨o', hr, h⟩ := Store.stateAfter_add id o s
  · rw [h]
    exact ⟨hs, rfl⟩
  · rw [h]
    refine ⟨⟨fun x o₁ hx => ?_, fun x hx => ?_⟩, rfl⟩
    · by_cases hxi : id = x
      · subst hxi
        rw [Graph.find?_insert_self] at hx
        exact Option.some.inj hx ▸ hr.wellFormed ho
      · exact hs.wellFormed x o₁ (Graph.find?_insert_of_ne hxi ▸ hx)
    · by_cases hxi : id = x
      · exact hxi ▸ hid
      · obtain ⟨o₁, ho₁⟩ := Graph.mem_ids_iff.1 hx
        rw [Graph.find?_insert_of_ne hxi] at ho₁
        exact hs.bounded x (Graph.mem_ids_of_find? ho₁)

/-- Assigning a varying is an edit of the graph, and makes a main code or does not. -/
theorem perform_assignVarying {m : StageMain} {varying expression : ObjectId} :
    (Action.assignVarying k m varying expression).perform σ =
      { σ.setStore k (stateAfter (m.assignVarying varying expression) (σ.store k)) with
        mains := ((Action.assignVarying k m varying expression).perform σ).mains } := by
  simp only [Action.perform, stateAfter]
  cases (m.assignVarying varying expression).run (σ.store k) <;> rfl

/-- **Actions keep sessions lawful.** -/
theorem Lawful.perform (h : σ.Lawful) {a : Action} (ha : a.Possible σ) : (a.perform σ).Lawful := by
  cases a with
  | edit k op =>
    have hop := op.evolves (h.store k)
    exact h.setStore (hop.lawful (h.store k)) hop.fresh
  | add k id o =>
    obtain ⟨ho, hid⟩ := h.loose _ ha
    obtain ⟨hs, hfresh⟩ := lawful_add (h.store k) ho hid
    exact h.setStore hs (Nat.le_of_eq (congrArg ObjectId.index hfresh).symm)
  | make o => exact h.make (Object.New.wellFormed ha)
  | copy k id =>
    refine h.addLoose fun p hp => ?_
    simp only [Option.mem_toList, Option.map_eq_some_iff] at hp
    obtain ⟨o, ho, rfl⟩ := hp
    exact ⟨(h.store k).wellFormed id o ho, (h.store k).bounded id (Graph.mem_ids_of_find? ho)⟩
  | alter id old new =>
    refine h.addLoose (l := [(id, new)]) fun p hp => ?_
    obtain rfl := List.mem_singleton.1 hp
    exact ⟨ha.2.wellFormed (h.loose _ ha.1).1, (h.loose _ ha.1).2⟩
  | assignVarying k m varying expression =>
    have hm := m.evolves_assignVarying (h.store k) varying expression
    have hlawful := h.setStore (k := k) (hm.lawful (h.store k)) hm.fresh
    -- only the main codes differ from those of the edited session
    rw [perform_assignVarying]
    exact ⟨hlawful.store, hlawful.loose⟩
  | _ => exact ⟨h.store, h.loose⟩

theorem Reachable.lawful (h : Reachable σ) : σ.Lawful := by
  induction h with
  | empty => exact lawful_empty
  | act _ a ha ih => exact ih.perform ha

theorem fresh_le_perform (h : σ.Lawful) {a : Action} (ha : a.Possible σ) :
    σ.fresh.index ≤ (a.perform σ).fresh.index := by
  cases a with
  | edit k op => exact (op.evolves (h.store k)).fresh
  | add k id o =>
    obtain ⟨ho, hid⟩ := h.loose _ ha
    exact Nat.le_of_eq (congrArg ObjectId.index (lawful_add (h.store k) ho hid).2).symm
  | make o => exact Nat.le_succ _
  | assignVarying k m varying expression =>
    rw [perform_assignVarying]
    exact (m.evolves_assignVarying (h.store k) varying expression).fresh
  | _ => exact Nat.le_refl _

/-- What an action adds to a graph, or that it adds nothing to it. -/
theorem Action.adds_cases (σ : Session) (k : Nat) (a : Action) :
    (∃ id o, a = .add k id o ∧
      (a.perform σ).graphs k = (stateAfter (Store.add id o) (σ.store k)).graph) ∨
    ∀ x, ¬ a.Adds k x := by
  by_cases hadds : ∃ x, a.Adds k x
  · obtain ⟨id, o, rfl⟩ := hadds
    exact .inl ⟨id, o, rfl, graphs_setStore⟩
  · exact .inr fun x hx => hadds ⟨x, hx⟩

/-- The edit whose effect an action has on a graph. -/
inductive Action.Runs (k : Nat) : Operation → Action → Prop where
  | edit (op : Operation) : Runs k op (.edit k op)
  | assignVarying (m : StageMain) (varying expression : ObjectId) :
      Runs k (.link varying expression) (.assignVarying k m varying expression)

/-- **An action has the effect of one edit** on each graph to which it adds nothing, or leaves the
graph as it is. -/
theorem Action.exists_effect (h : σ.Lawful) {a : Action} (hadd : ∀ x, ¬ a.Adds k x) :
    (a.perform σ).graphs k = σ.graphs k ∨
      ∃ op, Action.Runs k op a ∧ Store.Effect op (σ.store k) ((a.perform σ).store k) := by
  cases a with
  | edit j op =>
    by_cases hj : k = j
    · subst hj
      refine .inr ⟨op, .edit op, ?_⟩
      rw [perform, store_setStore]
      exact op.effect (h.store k)
    · exact .inl (Function.update_of_ne hj ..)
  | add j id o =>
    have hj : k ≠ j := fun hj => hadd id ⟨o, hj ▸ rfl⟩
    exact .inl (Function.update_of_ne hj ..)
  | assignVarying j m varying expression =>
    rw [perform_assignVarying]
    by_cases hj : k = j
    · subst hj
      refine .inr ⟨_, .assignVarying m varying expression, ?_⟩
      -- only the main codes differ from those of the edited session
      change Store.Effect _ _ ((σ.setStore k _).store k)
      rw [store_setStore]
      exact m.effect_assignVarying varying expression
    · exact .inl (Function.update_of_ne hj ..)
  | _ => exact .inl rfl

/-- **An action edits each graph** to which it adds nothing. -/
theorem Action.edited (h : σ.Lawful) {a : Action} (ha : a.Possible σ)
    (hadd : ∀ x, ¬ a.Adds k x) :
    Store.Edited (a.FlipsZero σ k) (a.Tangles σ k) (σ.store k) ((a.perform σ).store k) := by
  obtain hgraph | ⟨op, hop, heffect⟩ := Action.exists_effect h hadd
  · -- what is done to another graph may hand out identifiers
    exact .idle hgraph (fresh_le_perform h ha)
  · refine (heffect.edited (h.store k)).mono ?_ ?_
    · intro hzero
      cases hop with
      | edit => exact ⟨op, rfl, hzero⟩
      | assignVarying => exact hzero.elim
    · rintro ⟨chain, hchain, htangles⟩
      cases hop with
      | edit =>
        rw [perform, store_setStore] at htangles
        exact ⟨op, rfl, Operation.tangles_iff.2 ⟨chain, hchain, htangles⟩⟩
      | assignVarying => cases hchain

/-- **An action takes each graph through a number of steps**, as long as it adds nothing in the
place of an object that is there. -/
theorem Action.steps (h : σ.Lawful) {a : Action} (ha : a.Possible σ)
    (hadd : ∀ x, a.Adds k x → x ∉ (σ.graphs k).ids) :
    Graph.Steps (fun x => σ.fresh.index ≤ x.index ∨ a.Adds k x) (a.FlipsZero σ k) (σ.graphs k)
      ((a.perform σ).graphs k) := by
  obtain ⟨id, o, rfl, hgraph⟩ | hadds := a.adds_cases σ k
  · have hid : (Action.add k id o).Adds k id := ⟨o, rfl⟩
    rw [hgraph]
    obtain hsame | ⟨o', hr, hsame⟩ := Store.stateAfter_add id o (σ.store k)
    · rw [hsame]
      exact .refl
    · rw [hsame]
      -- nothing is there, so the object is inserted and takes no other's place
      have habsent : (σ.graphs k).find? id = none := by
        cases hx : (σ.graphs k).find? id with
        | none => rfl
        | some o₁ => exact absurd (Graph.mem_ids_of_find? hx) (hadd id hid)
      exact .single (.insert (.inr hid) habsent (hr.wellFormed (h.loose _ ha).1))
  · have hedited := Action.edited h ha hadds
    exact Graph.Steps.mono (fun x hx => .inl hx.1) (fun hzero => hzero) hedited.steps

/-! ### What a graph has held -/

/-- `held` are identifiers that were handed out, and all that a graph holds are among them. -/
structure Tracks (σ : Session) (k : Nat) (held : ObjectId → Prop) : Prop where
  lawful : σ.Lawful
  complete : ∀ x ∈ (σ.graphs k).ids, held x
  bounded : ∀ x, held x → x.index < σ.fresh.index

variable {held : ObjectId → Prop}

theorem tracks_empty (k : Nat) : Tracks empty k fun _ => False where
  lawful := lawful_empty
  complete := fun x hx => by simp [empty, Graph.empty, Graph.ids] at hx
  bounded := nofun

/-- An edit adds what the graph holds then. -/
theorem Tracks.setStore {flip : Prop} {s : Store} (h : Tracks σ k held)
    (hs : Store.Evolves flip (σ.store k) s) :
    Tracks (σ.setStore k s) k fun x => held x ∨ x ∈ s.graph.ids where
  lawful := h.lawful.setStore (hs.lawful (h.lawful.store k)) hs.fresh
  complete := fun x hx => .inr (graphs_setStore ▸ hx)
  bounded := by
    rintro x (hx | hx)
    · exact Nat.lt_of_lt_of_le (h.bounded x hx) hs.fresh
    · exact (hs.lawful (h.lawful.store k)).bounded x hx

/-- What an edit makes was never held. -/
theorem Tracks.not_held (h : Tracks σ k held) {x : ObjectId} (hx : σ.fresh.index ≤ x.index) :
    ¬ held x :=
  fun hheld => absurd (h.bounded x hheld) (Nat.not_lt.2 hx)

/-- An action adds what the graph holds then. -/
theorem Tracks.act (h : Tracks σ k held) {a : Action} (ha : a.Possible σ) :
    Tracks (a.perform σ) k fun x => held x ∨ x ∈ ((a.perform σ).graphs k).ids where
  lawful := h.lawful.perform ha
  complete := fun _ hx => .inr hx
  bounded := by
    rintro x (hx | hx)
    · exact Nat.lt_of_lt_of_le (h.bounded x hx) (fresh_le_perform h.lawful ha)
    · exact ((h.lawful.perform ha).store k).bounded x hx

/-- **What an action makes was never held**, as long as it adds nothing that was. -/
theorem Tracks.steps (h : Tracks σ k held) {a : Action} (ha : a.Possible σ)
    (hadd : ∀ x, a.Adds k x → ¬ held x) : ∃ new : ObjectId → Prop, (∀ x, new x → ¬ held x) ∧
      Graph.Steps new (a.FlipsZero σ k) (σ.graphs k) ((a.perform σ).graphs k) := by
  refine ⟨_, ?_, Action.steps h.lawful ha fun x hx hmem => hadd x hx (h.complete x hmem)⟩
  -- what is made has an identifier that was not handed out yet
  rintro x (hx | hx)
  · exact h.not_held hx
  · exact hadd x hx

end Session

end ShaderLink
