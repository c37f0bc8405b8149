import ShaderLink.Proofs.Graph.Derived
import ShaderLink.Store.Edits

/-!
# How edits change a store

Every edit takes the graph of its store through a number of steps and hands out identifiers in
ascending order, whether it answers or fails (`Store.Evolves`), and keeps chains derived unless it
tangles them (`Store.Edited`). Both hold of one edit after another, and of each change that edits
make to a graph: an object is inserted, revised or removed, a variable takes a value
(`edited_insert`, `edited_revise`, `edited_remove`, `edited_value`), and a chain gets other members
(`edited_members`).

All of it starts from a **lawful** store, in which objects are well formed and have identifiers that
were handed out (`Store.Lawful`).

Only the edits that give chains other members can tangle (`Store.Tangles`): where that changes the
signature of a chain, and the walk that passes the change on comes to some chain before one of its
members, that chain is left with the types that its members had by then.
-/

namespace ShaderLink

namespace Graph

/-- Whether a value would put one zero in the place of the other in a constant. -/
def FlipsZero (g : Graph) (id : ObjectId) (value : Value) : Prop :=
  ∃ v old, g.find? id = some (.var v) ∧ v.qualifier = some .const ∧ v.value = some old ∧
    old.OppositeZeros value

end Graph

namespace Store

/-- A store of well-formed objects under identifiers that were handed out. -/
structure Lawful (s : Store) : Prop where
  wellFormed : s.graph.AllWellFormed
  bounded : ∀ x ∈ s.graph.ids, x.index < s.fresh.index

/-- What an edit can do to a store. The objects it makes get the identifiers it hands out. -/
structure Evolves (flip : Prop) (s t : Store) : Prop where
  fresh : s.fresh.index ≤ t.fresh.index
  steps : Graph.Steps (fun x => s.fresh.index ≤ x.index ∧ x.index < t.fresh.index) flip s.graph
    t.graph

variable {flip : Prop} {s t u : Store}

theorem Evolves.refl (s : Store) : Evolves flip s s where
  fresh := Nat.le_refl _
  steps := .refl

theorem Evolves.lawful (h : Evolves flip s t) (hs : s.Lawful) : t.Lawful where
  wellFormed := Graph.Steps.allWellFormed h.steps hs.wellFormed
  bounded := fun x hx => by
    by_cases hx' : x ∈ s.graph.ids
    · exact Nat.lt_of_lt_of_le (hs.bounded x hx') h.fresh
    · exact (Graph.Steps.born h.steps hx' hx).2

theorem Evolves.trans (h : Evolves flip s t) (h' : Evolves flip t u) : Evolves flip s u where
  fresh := Nat.le_trans h.fresh h'.fresh
  steps := by
    refine .trans (Graph.Steps.mono (fun x hx => ?_) id h.steps)
      (Graph.Steps.mono (fun x hx => ?_) id h'.steps)
    · exact ⟨hx.1, Nat.lt_of_lt_of_le hx.2 h'.fresh⟩
    · exact ⟨Nat.le_trans h.fresh hx.1, hx.2⟩

theorem Evolves.mono {flip' : Prop} (hflip : flip → flip') (h : Evolves flip s t) :
    Evolves flip' s t where
  fresh := h.fresh
  steps := Graph.Steps.mono (fun _ hx => hx) hflip h.steps

theorem Lawful.find?_fresh (h : s.Lawful) : s.graph.find? s.fresh = none := by
  cases ho : s.graph.find? s.fresh with
  | none => rfl
  | some o => exact absurd (h.bounded _ (Graph.mem_ids_of_find? ho)) (Nat.lt_irrefl _)

/-- Whether giving a chain other members has changed its signature, and has passed the change on by
a walk that comes to some chain before one of its members. -/
def Tangles (chain : ObjectId) (s t : Store) : Prop :=
  s.graph.Resigns chain (t.graph.membersOf chain) ∧ ¬ t.graph.Orderly chain

/-- **What an edit does to a store.** Chains stay derived unless they are tangled. -/
structure Edited (flip tangled : Prop) (s t : Store) : Prop extends Evolves flip s t where
  derived : ¬ tangled → s.Lawful → s.graph.Exact → s.graph.Derived s.fresh.index →
    t.graph.Derived t.fresh.index

variable {tangled : Prop}

theorem Edited.refl (s : Store) : Edited flip tangled s s where
  toEvolves := .refl s
  derived := fun _ _ _ h => h

theorem Edited.trans (h : Edited flip tangled s t) (h' : Edited flip tangled t u) :
    Edited flip tangled s u where
  toEvolves := h.toEvolves.trans h'.toEvolves
  derived := fun hfree hs hexact hderived =>
    h'.derived hfree (h.lawful hs) (Graph.Steps.exact h.steps hexact)
      (h.derived hfree hs hexact hderived)

theorem Edited.mono {flip' tangled' : Prop} (hflip : flip → flip') (htangled : tangled → tangled')
    (h : Edited flip tangled s t) : Edited flip' tangled' s t where
  toEvolves := h.toEvolves.mono hflip
  derived := fun hfree => h.derived (mt htangled hfree)

/-- Identifiers may be handed out and the graph left as it is. -/
theorem Edited.idle (hgraph : t.graph = s.graph) (hfresh : s.fresh.index ≤ t.fresh.index) :
    Edited flip tangled s t where
  fresh := hfresh
  steps := hgraph ▸ .refl
  derived := fun _ _ _ hderived => hgraph ▸ hderived.mono hfresh

/-! ### The changes that edits make -/

/-- An object put under the identifier that was handed out for it. A chain has to have the types of
its members. -/
theorem edited_insert {o : Object} (hs : s.Lawful) (ho : o.WellFormed)
    (hchain : ∀ c, o = .chain c → s.graph.rederive c = c ∧ ∀ x ∈ c.members, x ∈ s.graph.ids) :
    Edited flip tangled s ⟨s.graph.insert s.fresh o, s.fresh.next⟩ where
  fresh := Nat.le_succ _
  steps := .single (.insert ⟨Nat.le_refl _, Nat.lt_succ_self _⟩ hs.find?_fresh ho)
  derived := fun _ hs _ hderived => hderived.insert fun c hc =>
    (hchain c hc).imp_right fun hmembers x hx => hs.bounded x (hmembers x hx)

/-- A step of the graph that makes no objects. -/
theorem edited_step {g : Graph} (h : Graph.Step (fun _ => False) flip s.graph g)
    (hderived : s.graph.Exact → s.graph.Derived s.fresh.index → g.Derived s.fresh.index) :
    Edited flip tangled s { s with graph := g } where
  fresh := Nat.le_refl _
  steps := .single (h.mono (fun _ hx => hx.elim) fun hflip => hflip)
  derived := fun _ _ => hderived

/-- A revision of an object that is not a chain. -/
theorem edited_revise {id : ObjectId} {o o' : Object} (kept removed added : List ObjectId)
    (ho : s.graph.find? id = some o) (hrev : o.Revised o') (hchain : ∀ c, o ≠ .chain c)
    (hold : o.references.Perm (kept ++ removed)) (hnow : o'.references.Perm (kept ++ added)) :
    Edited flip tangled s { s with graph := (s.graph.revise id o' removed added).touch id } :=
  edited_step (.revise kept removed added ho hrev hold hnow) fun hexact hderived =>
    hderived.revise (hexact.revise ho hold hnow) ho hrev hchain

theorem edited_remove {id : ObjectId} {o : Object} (ho : s.graph.find? id = some o) :
    Edited flip tangled s { s with graph := (s.graph.discard id o).touch id } :=
  edited_step (.remove ho) fun hexact hderived => hderived.discard (hexact.discard ho)

/-- A value for a variable. Only one zero in the place of the other changes the definition of a
constant unnoticed. -/
theorem edited_value {id : ObjectId} {v w : Variable} {value : Value} {changed : Bool}
    (hs : s.Lawful) (hv : s.graph.find? id = some (.var v))
    (hset : v.setValue value = .ok (w, changed)) :
    Edited (s.graph.FlipsZero id value) tangled s
      { s with graph :=
          if changed then (s.graph.setObject id (.var w)).touch id
          else (s.graph.setObject id (.var w)).advance } := by
  have hwf : v.WellFormed := hs.wellFormed _ _ hv
  cases changed with
  | true =>
    -- everybody is told, whatever has become of qualifier and type
    have hstate := Variable.state_of_setValue hset
    refine edited_revise v.link.toList [] [] hv
      (.var (by omega) (fun h => by omega) fun h => h.setValue hset) nofun ?_ ?_
    · exact (List.append_nil _).symm ▸ .refl _
    · rw [List.append_nil, Object.references, Variable.link_of_setValue hset]
  | false =>
    obtain ⟨rfl, hconst⟩ := Variable.eq_store_of_setValue hwf hset
    -- nobody is told, because the definition stays the same but for the sign of a zero
    refine edited_step (.assign hv fun hc => ?_) fun _ hderived => hderived.assign hv
    obtain ⟨old, hold, rfl | hzero⟩ := hconst hc
    · exact .inl hold
    · exact .inr ⟨v, old, hv, hc, hold, hzero⟩

/-- Deriving the types of a revised chain is part of the revision. -/
theorem exists_refresh_revise {g : Graph} {id : ObjectId} {c : Chain}
    (members removed added : List ObjectId) (hc : g.find? id = some (.chain c)) :
    ∃ c' : Chain, c'.members = members ∧
      ((g.revise id (.chain { c with members }) removed added).refresh id).2 =
        g.revise id (.chain c') removed added := by
  have hset : (g.revise id (.chain { c with members }) removed added).find? id =
      some (.chain { c with members }) := Graph.find?_revise_self hc
  obtain h | ⟨c₁, c', hc₁, hr, h⟩ := Graph.refresh_eq
    (g.revise id (.chain { c with members }) removed added) id
  · exact ⟨_, rfl, h⟩
  · rw [hset] at hc₁
    obtain rfl := Object.chain.inj (Option.some.inj hc₁)
    -- the chain that is put in its place replaces the one that the revision has put there
    exact ⟨c', hr.references_eq, by rw [h, Graph.setObject_revise]⟩

/-- A chain gets other members, each of them one that it had or another object that is there. -/
theorem edited_members {id : ObjectId} {c : Chain} (members kept gone came : List ObjectId)
    (hc : s.graph.find? id = some (.chain c)) (hold : c.members.Perm (kept ++ gone))
    (hnow : members.Perm (kept ++ came))
    (hmembers : ∀ x ∈ members, x ∈ c.members ∨ (x ≠ id ∧ x ∈ s.graph.ids)) {t : Store}
    (ht : t = { s with graph :=
      ((s.graph.revise id (.chain { c with members }) gone came).refresh id).2.touch id }) :
    Edited flip (Tangles id s t) s t where
  toEvolves := by
    obtain ⟨c', rfl, hrefresh⟩ := exists_refresh_revise members gone came hc
    have hstep : Graph.Step (fun _ => False) flip s.graph
        ((s.graph.revise id (.chain c') gone came).touch id) :=
      .revise kept gone came hc (.chain c c') hold hnow
    rw [ht, hrefresh]
    exact ⟨Nat.le_refl _, .single (hstep.mono (fun _ hx => hx.elim) fun hflip => hflip)⟩
  derived := fun hfree hs hexact hderived => by
    rw [ht] at hfree ⊢
    refine hderived.rechain hc members gone came (fun x hx => ?_)
      (Graph.Exact.revise hexact hc hold hnow) fun hresigns => ?_
    · obtain hx | ⟨hne, hx⟩ := hmembers x hx
      · rw [← Graph.membersOf_of_chain hc] at hx
        exact ⟨ne_of_mem_of_not_mem hx (hderived.irreflexive id), hderived.bounded id x hx⟩
      · exact ⟨hne, hs.bounded x hx⟩
    · -- the chain has the members it was given, and the edit does not tangle
      by_contra horder
      refine hfree ⟨?_, horder⟩
      rwa [Graph.membersOf_touch, Graph.membersOf_refresh,
        Graph.membersOf_rechain hc members gone came, if_pos rfl]

end Store

end ShaderLink
