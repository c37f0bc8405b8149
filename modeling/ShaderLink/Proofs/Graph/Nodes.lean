import Mathlib.Data.List.Nodup
import Mathlib.Data.List.Perm.Basic
import ShaderLink.Graph.Touch
import ShaderLink.Proofs.Outcome

/-!
# Nodes after the steps of an edit

What each step of an edit leaves at each identifier. Later modules reason about graphs through these
equations and do not open the steps again.
-/

namespace ShaderLink.Graph

variable {g : Graph} {id x : ObjectId} {o : Object}

/-! ### Presence -/

theorem find?_eq_some_iff : g.find? x = some o ↔ ∃ n, g.nodes[x]? = some n ∧ n.object = o := by
  simp [find?]

theorem find?_eq_none_iff : g.find? x = none ↔ g.nodes[x]? = none := by
  simp [find?]

theorem find?_of_node {n : Node} (h : g.nodes[x]? = some n) : g.find? x = some n.object := by
  simp [find?, h]

theorem mem_ids_iff : x ∈ g.ids ↔ ∃ o, g.find? x = some o := by
  simp only [ids, Std.ExtTreeMap.mem_keys, Std.ExtTreeMap.mem_iff_isSome_getElem?, find?]
  cases g.nodes[x]? <;> simp

theorem exists_node (h : x ∈ g.ids) : ∃ n, g.nodes[x]? = some n := by
  obtain ⟨o, ho⟩ := mem_ids_iff.1 h
  obtain ⟨n, hn, -⟩ := find?_eq_some_iff.1 ho
  exact ⟨n, hn⟩

theorem mem_ids_of_find? (h : g.find? x = some o) : x ∈ g.ids := mem_ids_iff.2 ⟨o, h⟩

theorem length_ids : g.ids.length = g.nodes.size := Std.ExtTreeMap.length_keys

/-- Graphs that hold the same objects list them in the same order. -/
theorem ids_congr {g' : Graph} (hmem : ∀ x, x ∈ g'.ids ↔ x ∈ g.ids) : g'.ids = g.ids := by
  have hordered : ∀ g : Graph, g.ids.Pairwise fun a b => compare a b = .lt := fun g =>
    Std.ExtTreeMap.ordered_keys
  have hnodup : ∀ g : Graph, g.ids.Nodup := fun g =>
    (hordered g).imp fun hlt heq => by
      rw [heq, Std.ReflOrd.compare_self] at hlt
      cases hlt
  refine ((List.perm_ext_iff_of_nodup (hnodup g') (hnodup g)).2 hmem).eq_of_pairwise ?_
    (hordered g') (hordered g)
  -- nothing is listed both before and after another thing
  intro a b _ _ hab hba
  rw [Std.OrientedOrd.eq_swap, hba] at hab
  cases hab

theorem revision_eq_ok_iff {r : Nat} :
    g.revision x = .ok r ↔ ∃ n, g.nodes[x]? = some n ∧ n.revision = r := by
  unfold revision
  cases g.nodes[x]? <;> simp

theorem find?_congr {g' : Graph} (h : g'.nodes[x]? = g.nodes[x]?) : g'.find? x = g.find? x := by
  rw [find?, find?, h]

/-! ### Objects by kind -/

theorem getFunction_eq_ok_iff {s : Snippet} :
    g.getFunction x = .ok s ↔ g.find? x = some (.function s) := by
  unfold getFunction get
  cases g.find? x with
  | none => simp
  | some o => cases o <;> simp

theorem getVariable_eq_ok_iff {v : Variable} :
    g.getVariable x = .ok v ↔ g.find? x = some (.var v) := by
  unfold getVariable get
  cases g.find? x with
  | none => simp
  | some o => cases o <;> simp

theorem getChain_eq_ok_iff {c : Chain} :
    g.getChain x = .ok c ↔ g.find? x = some (.chain c) := by
  unfold getChain get
  cases g.find? x with
  | none => simp
  | some o => cases o <;> simp

/-! ### Objects and revisions -/

@[simp] theorem getElem?_setObject :
    (g.setObject id o).nodes[x]? =
      if id = x then (g.nodes[x]?).map ({ · with object := o }) else g.nodes[x]? := by
  by_cases h : id = x <;> simp [setObject, Std.ExtTreeMap.getElem?_modify, h]

@[simp] theorem getElem?_bump :
    (g.bump id).nodes[x]? =
      if id = x then (g.nodes[x]?).map (fun n => { n with revision := n.revision + 1 })
      else g.nodes[x]? := by
  by_cases h : id = x <;> simp [bump, Std.ExtTreeMap.getElem?_modify, h]

theorem find?_setObject_self (h : g.find? id = some o) (o' : Object) :
    (g.setObject id o').find? id = some o' := by
  obtain ⟨n, hn, -⟩ := find?_eq_some_iff.1 h
  simp [find?, hn]

theorem find?_setObject_of_ne (h : id ≠ x) : (g.setObject id o).find? x = g.find? x := by
  simp [find?, h]

@[simp] theorem find?_bump : (g.bump id).find? x = g.find? x := by
  rw [find?, find?, getElem?_bump]
  split
  · cases g.nodes[x]? <;> rfl
  · rfl

@[simp] theorem referrers_setObject : (g.setObject id o).referrers = g.referrers := rfl

@[simp] theorem generation_setObject : (g.setObject id o).generation = g.generation := rfl

@[simp] theorem generation_bump : (g.bump id).generation = g.generation := rfl

@[simp] theorem nodes_advance : g.advance.nodes = g.nodes := rfl

@[simp] theorem generation_advance : g.advance.generation = g.generation + 1 := rfl

/-- The last object put in a place is the one that stays. -/
theorem setObject_setObject (o' : Object) :
    (g.setObject id o).setObject id o' = g.setObject id o' := by
  refine congrArg (fun nodes => ({ g with nodes } : Graph)) ?_
  refine Std.ExtTreeMap.ext_getElem? fun x => ?_
  by_cases h : id = x
  · subst h
    cases hn : g.nodes[id]? <;> simp [setObject, hn]
  · simp [setObject, Std.ExtTreeMap.getElem?_modify, h]

/-! ### References -/

variable {targets : List ObjectId} {source : ObjectId}

@[simp] theorem find?_addReferences : (g.addReferences targets source).find? x = g.find? x :=
  find?_congr (by rw [nodes_addReferences])

@[simp] theorem find?_removeReferences : (g.removeReferences targets source).find? x = g.find? x :=
  find?_congr (by rw [nodes_removeReferences])

@[simp] theorem generation_addReferences :
    (g.addReferences targets source).generation = g.generation := by
  unfold addReferences
  induction targets generalizing g with
  | nil => rfl
  | cons t ts ih => exact ih

@[simp] theorem generation_removeReferences :
    (g.removeReferences targets source).generation = g.generation := by
  unfold removeReferences
  induction targets generalizing g with
  | nil => rfl
  | cons t ts ih => exact ih

/-- Adding references touches the record alone. -/
theorem setObject_addReferences :
    (g.addReferences targets source).setObject id o =
      (g.setObject id o).addReferences targets source := by
  unfold addReferences
  induction targets generalizing g with
  | nil => rfl
  | cons t ts ih => exact ih

/-- Removing references touches the record alone. -/
theorem setObject_removeReferences :
    (g.removeReferences targets source).setObject id o =
      (g.setObject id o).removeReferences targets source := by
  unfold removeReferences
  induction targets generalizing g with
  | nil => rfl
  | cons t ts ih => exact ih

theorem count_addReferences (target other : ObjectId) :
    (g.addReferences targets source).referrers.count target other =
      g.referrers.count target other + if source = other then targets.count target else 0 := by
  unfold addReferences
  induction targets generalizing g with
  | nil => simp
  | cons t ts ih =>
    rw [List.foldl_cons, ih]
    -- the first reference counts if it is one from `other` to `target`
    simp only [addReference, Referrers.count_add, List.count_cons]
    by_cases hs : source = other
    · by_cases ht : t = target
      · simp [hs, ht]
        omega
      · simp [hs, ht]
    · simp [hs]

theorem count_removeReferences (target other : ObjectId) :
    (g.removeReferences targets source).referrers.count target other =
      g.referrers.count target other - if source = other then targets.count target else 0 := by
  unfold removeReferences
  induction targets generalizing g with
  | nil => simp
  | cons t ts ih =>
    rw [List.foldl_cons, ih]
    simp only [removeReference, Referrers.count_remove, List.count_cons]
    by_cases hs : source = other
    · by_cases ht : t = target
      · simp [hs, ht]
        omega
      · simp [hs, ht]
    · simp [hs]

theorem mem_referrersOf_iff :
    source ∈ g.referrersOf x ↔ 0 < g.referrers.count x source :=
  Referrers.mem_sources_iff _ _ _

/-- Whoever refers to something is on the record. -/
theorem mem_allSources_of_mem_referrersOf (h : source ∈ g.referrersOf x) :
    source ∈ g.referrers.allSources := by
  rw [mem_referrersOf_iff] at h
  unfold Referrers.count at h
  have hsource := List.count_pos_iff.1 h
  unfold Referrers.entries at hsource
  cases hx : g.referrers.records[x]? with
  | none => simp [hx] at hsource
  | some l =>
    refine List.mem_flatMap.2 ⟨(x, l), Std.ExtTreeMap.mem_toList_iff_getElem?_eq_some.2 hx, ?_⟩
    simpa [hx] using hsource

/-! ### Insertion and removal -/

theorem getElem?_insert :
    (g.insert id o).nodes[x]? = if id = x then some ⟨o, 0⟩ else g.nodes[x]? := by
  simp [insert, Std.ExtTreeMap.getElem?_insert]

@[simp] theorem generation_insert : (g.insert id o).generation = g.generation + 1 := by
  simp [insert]

theorem referrers_insert :
    (g.insert id o).referrers = (g.addReferences o.references id).referrers := rfl

theorem getElem?_erase :
    ({ g with nodes := g.nodes.erase id } : Graph).nodes[x]? =
      if id = x then none else g.nodes[x]? := by
  simp [Std.ExtTreeMap.getElem?_erase]

end ShaderLink.Graph
