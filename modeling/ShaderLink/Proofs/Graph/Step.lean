import Mathlib.Data.List.Perm.Basic
import Mathlib.Logic.Relation
import ShaderLink.Proofs.Graph.Touch

/-!
# The steps that edits are made of

Every edit changes its graph by **steps** of four kinds (`Graph.Step`): an object is inserted under
an identifier that is not there, an object is revised and touched, a variable is given a value that
leaves its definition alone, or an object is removed and touched. What edits keep is proved here for
one step and, by induction, for any number of them:

* the record of references is exact up to the same extra references (`Step.exactUpTo`), and objects
  are well formed (`Step.allWellFormed`);
* the generation grows, so that it tells graphs apart (`Steps.eq_of_generation`);
* a variable that has taken no new value still has the old one (`Steps.variable`).
-/

namespace ShaderLink

namespace Graph

/-- How often an object refers to another; not at all if it is not there. -/
def mentions (g : Graph) (target source : ObjectId) : Nat :=
  ((g.find? source).map fun o => o.references.count target).getD 0

/-- The record of references holds the references of the objects that are there, and no others. -/
def Exact (g : Graph) : Prop :=
  ∀ target source, g.referrers.count target source = g.mentions target source

/-- The record holds, besides the references of the objects that are there, some `extra` ones that
belong to none of them. -/
def ExactUpTo (g : Graph) (extra : ObjectId → ObjectId → Nat) : Prop :=
  ∀ target source, g.referrers.count target source = g.mentions target source + extra target source

/-- All objects are well formed. -/
def AllWellFormed (g : Graph) : Prop :=
  ∀ x o, g.find? x = some o → o.WellFormed

/-- The graph in which an object is revised, before anybody is told. -/
def revise (g : Graph) (id : ObjectId) (o : Object) (removed added : List ObjectId) : Graph :=
  ((g.setObject id o).removeReferences removed id).addReferences added id

/-- The graph in which an object is removed, before anybody is told. -/
def discard (g : Graph) (id : ObjectId) (o : Object) : Graph :=
  ({ g with nodes := g.nodes.erase id } : Graph).removeReferences o.references id

/-- **A step of an edit.** Only identifiers that are `new` are inserted, and the value of a constant
is only replaced by itself unless `flip` says that a zero takes the place of the other. -/
inductive Step (new : ObjectId → Prop) (flip : Prop) : Graph → Graph → Prop where
  | insert {g : Graph} {id : ObjectId} {o : Object} (hnew : new id) (habsent : g.find? id = none)
      (hwf : o.WellFormed) : Step new flip g (g.insert id o)
  | revise {g : Graph} {id : ObjectId} {o o' : Object} (kept removed added : List ObjectId)
      (ho : g.find? id = some o) (hrev : o.Revised o')
      (hold : o.references.Perm (kept ++ removed)) (hnow : o'.references.Perm (kept ++ added)) :
      Step new flip g ((g.revise id o' removed added).touch id)
  | assign {g : Graph} {id : ObjectId} {v : Variable} {value : Value}
      (hv : g.find? id = some (.var v))
      (hconst : v.qualifier = some .const → v.value = some value ∨ flip) :
      Step new flip g (g.setObject id (.var (v.store value))).advance
  | remove {g : Graph} {id : ObjectId} {o : Object} (ho : g.find? id = some o) :
      Step new flip g ((g.discard id o).touch id)

/-- Any number of steps. -/
abbrev Steps (new : ObjectId → Prop) (flip : Prop) : Graph → Graph → Prop :=
  Relation.ReflTransGen (Step new flip)

variable {g g' : Graph} {id x y : ObjectId} {o o' : Object} {kept removed added : List ObjectId}
  {extra : ObjectId → ObjectId → Nat} {new : ObjectId → Prop} {flip : Prop}

/-! ### Revising and discarding -/

theorem getElem?_revise :
    (g.revise id o removed added).nodes[x]? =
      if id = x then (g.nodes[x]?).map ({ · with object := o }) else g.nodes[x]? := by
  rw [revise, nodes_addReferences, nodes_removeReferences, getElem?_setObject]

theorem find?_revise_self (h : g.find? id = some o) :
    (g.revise id o' removed added).find? id = some o' := by
  rw [revise, find?_addReferences, find?_removeReferences, find?_setObject_self h]

theorem find?_revise_of_ne (h : id ≠ x) : (g.revise id o removed added).find? x = g.find? x :=
  find?_congr (by rw [getElem?_revise, if_neg h])

/-- A revision takes the place of another. -/
theorem setObject_revise :
    (g.revise id o removed added).setObject id o' = g.revise id o' removed added := by
  rw [revise, setObject_addReferences, setObject_removeReferences, setObject_setObject, revise]

@[simp] theorem generation_revise :
    (g.revise id o removed added).generation = g.generation := by
  simp [revise]

theorem count_revise (target source : ObjectId) :
    (g.revise id o removed added).referrers.count target source =
      g.referrers.count target source - (if id = source then removed.count target else 0) +
        if id = source then added.count target else 0 := by
  rw [revise, count_addReferences, count_removeReferences, referrers_setObject]

theorem getElem?_discard :
    (g.discard id o).nodes[x]? = if id = x then none else g.nodes[x]? := by
  rw [discard, nodes_removeReferences, getElem?_erase]

theorem find?_discard_self : (g.discard id o).find? id = none := by
  rw [find?_eq_none_iff, getElem?_discard, if_pos rfl]

theorem find?_discard_of_ne (h : id ≠ x) : (g.discard id o).find? x = g.find? x :=
  find?_congr (by rw [getElem?_discard, if_neg h])

@[simp] theorem generation_discard : (g.discard id o).generation = g.generation := by
  simp [discard]

theorem find?_insert_of_ne (h : id ≠ x) : (g.insert id o).find? x = g.find? x :=
  find?_congr (by rw [getElem?_insert, if_neg h])

/-- What is there after an insertion is what was inserted, or was there before. -/
theorem find?_insert_cases {o₁ : Object} (h : (g.insert id o).find? x = some o₁) :
    (x = id ∧ o₁ = o) ∨ (id ≠ x ∧ g.find? x = some o₁) := by
  by_cases hx : id = x
  · subst hx
    rw [find?_insert_self] at h
    exact .inl ⟨rfl, (Option.some.inj h).symm⟩
  · exact .inr ⟨hx, find?_insert_of_ne hx ▸ h⟩

/-- Different objects have different identifiers. -/
theorem ne_of_find?_ne (ho : g.find? id = some o) (ho' : g.find? x = some o') (hne : o ≠ o') :
    id ≠ x := by
  rintro rfl
  exact hne (Option.some.inj (ho.symm.trans ho'))

/-- What is there stays when something is inserted under an identifier that is not there. -/
theorem find?_insert_of_absent {o₁ : Object} (habsent : g.find? id = none)
    (ho : g.find? x = some o₁) : (g.insert id o).find? x = some o₁ := by
  have hx : id ≠ x := by
    rintro rfl
    rw [habsent] at ho
    cases ho
  exact (find?_insert_of_ne hx).trans ho

/-! ### Exact references -/

theorem mentions_of_find? (h : g.find? y = some o) : g.mentions x y = o.references.count x := by
  simp [mentions, h]

theorem mentions_eq_zero (h : g.find? y = none) : g.mentions x y = 0 := by
  simp [mentions, h]

/-- Where references are exact there are no extra ones. -/
theorem Exact.upTo (h : g.Exact) : g.ExactUpTo fun _ _ => 0 := h

/-- Whatever refers to an object is on its record. -/
theorem ExactUpTo.mem_referrersOf (h : g.ExactUpTo extra) (hy : g.find? y = some o)
    (hx : x ∈ o.references) : y ∈ g.referrersOf x := by
  rw [mem_referrersOf_iff, h x y, mentions_of_find? hy]
  exact Nat.add_pos_left (List.count_pos_iff.2 hx) _

theorem Exact.mem_referrersOf (h : g.Exact) (hy : g.find? y = some o) (hx : x ∈ o.references) :
    y ∈ g.referrersOf x :=
  h.upTo.mem_referrersOf hy hx

/-- Retyping chains changes no references. -/
theorem Retyping.exactUpTo {up : ObjectId → Nat} {p : ObjectId → Prop}
    (hretyping : Retyping up p g g') (h : g.ExactUpTo extra) : g'.ExactUpTo extra := by
  intro target source
  rw [hretyping.referrers, h target source]
  refine congrArg (· + extra target source) ?_
  cases hs : g.nodes[source]? with
  | none =>
    have hs' : g'.find? source = none := find?_eq_none_iff.2 (hretyping.absent source hs)
    rw [mentions_eq_zero (find?_eq_none_iff.2 hs), mentions_eq_zero hs']
  | some n =>
    obtain ⟨o', ho', hr, -⟩ := hretyping.present source n hs
    rw [mentions_of_find? (find?_of_node hs), mentions_of_find? (find?_of_node ho'),
      hr.references_eq]

theorem Retyping.exact {up : ObjectId → Nat} {p : ObjectId → Prop} (hretyping : Retyping up p g g')
    (h : g.Exact) : g'.Exact :=
  hretyping.exactUpTo h.upTo

theorem ExactUpTo.touch (h : g.ExactUpTo extra) (id : ObjectId) : (g.touch id).ExactUpTo extra :=
  (retyping_touch g id).exactUpTo (g := g.advance) h

theorem ExactUpTo.revise (h : g.ExactUpTo extra) (ho : g.find? id = some o)
    (hold : o.references.Perm (kept ++ removed)) (hnow : o'.references.Perm (kept ++ added)) :
    (g.revise id o' removed added).ExactUpTo extra := by
  intro target source
  rw [count_revise, h target source]
  by_cases hs : id = source
  · -- what is removed was referred to, so the subtraction does not stop at zero
    subst hs
    rw [mentions_of_find? ho, mentions_of_find? (find?_revise_self ho), if_pos rfl, if_pos rfl,
      hold.count_eq, hnow.count_eq, List.count_append, List.count_append]
    omega
  · rw [if_neg hs, if_neg hs]
    simp only [mentions, find?_revise_of_ne hs]
    omega

theorem Exact.revise (h : g.Exact) (ho : g.find? id = some o)
    (hold : o.references.Perm (kept ++ removed)) (hnow : o'.references.Perm (kept ++ added)) :
    (g.revise id o' removed added).Exact :=
  h.upTo.revise ho hold hnow

theorem ExactUpTo.discard (h : g.ExactUpTo extra) (ho : g.find? id = some o) :
    (g.discard id o).ExactUpTo extra := by
  intro target source
  have hcount : (g.discard id o).referrers.count target source =
      g.referrers.count target source - if id = source then o.references.count target else 0 :=
    count_removeReferences target source
  rw [hcount, h target source]
  by_cases hs : id = source
  · subst hs
    rw [mentions_of_find? ho, mentions_eq_zero find?_discard_self, if_pos rfl, Nat.zero_add,
      Nat.add_sub_cancel_left]
  · rw [if_neg hs, Nat.sub_zero]
    simp only [mentions, find?_discard_of_ne hs]

theorem Exact.discard (h : g.Exact) (ho : g.find? id = some o) : (g.discard id o).Exact :=
  h.upTo.discard ho

/-- An object that is inserted adds its references. Those of an object in its place become extra
ones. -/
theorem ExactUpTo.insert (h : g.ExactUpTo extra) (id : ObjectId) (o : Object) :
    (g.insert id o).ExactUpTo fun target source =>
      extra target source + if id = source then g.mentions target id else 0 := by
  intro target source
  dsimp only
  rw [referrers_insert, count_addReferences, h target source]
  by_cases hs : id = source
  · subst hs
    rw [mentions_of_find? (find?_insert_self g id o), if_pos rfl, if_pos rfl]
    omega
  · rw [if_neg hs, if_neg hs]
    simp only [mentions, find?_insert_of_ne hs]
    omega

/-- Where nothing is in its place, nothing was counted before. -/
theorem ExactUpTo.insert_absent (h : g.ExactUpTo extra) (habsent : g.find? id = none) :
    (g.insert id o).ExactUpTo extra := by
  have hinsert := h.insert id o
  simpa only [mentions_eq_zero habsent, ite_self, Nat.add_zero] using hinsert

theorem ExactUpTo.assign {v : Variable} {value : Value} (h : g.ExactUpTo extra)
    (hv : g.find? id = some (.var v)) :
    (g.setObject id (.var (v.store value))).advance.ExactUpTo extra := by
  intro target source
  change g.referrers.count target source = (g.setObject id _).mentions target source + _
  rw [h target source]
  by_cases hs : id = source
  · subst hs
    rw [mentions_of_find? hv, mentions_of_find? (find?_setObject_self hv _)]
    rfl
  · simp only [mentions, find?_setObject_of_ne hs]

/-- **A step adds no extra references and takes none back.** -/
theorem Step.exactUpTo (hstep : Step new flip g g') (h : g.ExactUpTo extra) :
    g'.ExactUpTo extra := by
  cases hstep with
  | insert _ habsent _ => exact h.insert_absent habsent
  | revise _ _ _ ho _ hold hnow => exact (h.revise ho hold hnow).touch _
  | assign hv _ => exact h.assign hv
  | remove ho => exact (h.discard ho).touch _

/-! ### What stays through a step -/

@[simp] theorem find?_advance : g.advance.find? x = g.find? x := rfl

/-- What is there after a touch was there before, up to the types of chains. -/
theorem find?_of_touch (h : (g.touch id).find? x = some o') :
    ∃ o, g.find? x = some o ∧ o.Retyped o' := by
  obtain ⟨n', hn', rfl⟩ := find?_eq_some_iff.1 h
  obtain ⟨n, hn, hr, -⟩ := node_of_touch hn'
  exact ⟨n.object, find?_of_node hn, hr⟩

/-- **What is there after a step** is new, or is what the step leaves of what was there before. -/
theorem Step.source (hstep : Step new flip g g') (h' : g'.find? x = some o') :
    (new x ∧ g.find? x = none ∧ o'.WellFormed) ∨ ∃ o, g.find? x = some o ∧ o.Kept o' := by
  cases hstep with
  | @insert id _ hnew habsent hwf =>
    by_cases hx : id = x
    · subst hx
      rw [find?_insert_self] at h'
      exact .inl ⟨hnew, habsent, Option.some.inj h' ▸ hwf⟩
    · exact .inr ⟨o', find?_insert_of_ne hx ▸ h', .refl o'⟩
  | @revise id o _ _ _ _ ho hrev _ _ =>
    -- the touch retypes chains at most, so what was there before it decides
    obtain ⟨o₂, ho₂, hr⟩ := find?_of_touch h'
    refine .inr ?_
    by_cases hx : id = x
    · subst hx
      rw [find?_revise_self ho] at ho₂
      exact ⟨o, ho, (Option.some.inj ho₂ ▸ hrev.kept).retyped hr⟩
    · exact ⟨o₂, find?_revise_of_ne hx ▸ ho₂, (Object.Kept.refl o₂).retyped hr⟩
  | @assign id v value hv _ =>
    refine .inr ?_
    rw [find?_advance] at h'
    by_cases hx : id = x
    · subst hx
      rw [find?_setObject_self hv] at h'
      exact ⟨.var v, hv, Option.some.inj h' ▸ (Object.Revised.store v value).kept⟩
    · exact ⟨o', find?_setObject_of_ne hx ▸ h', .refl o'⟩
  | @remove id o ho =>
    obtain ⟨o₂, ho₂, hr⟩ := find?_of_touch h'
    refine .inr ?_
    by_cases hx : id = x
    · -- what is removed is not there before the touch, so it is not there after it
      subst hx
      rw [find?_discard_self] at ho₂
      cases ho₂
    · exact ⟨o₂, find?_discard_of_ne hx ▸ ho₂, (Object.Kept.refl o₂).retyped hr⟩

/-- What was not there before a step is new. -/
theorem Step.born (hstep : Step new flip g g') (h : g.find? x = none)
    (h' : g'.find? x = some o) : new x := by
  obtain ⟨hnew, -⟩ | ⟨o₁, ho₁, -⟩ := hstep.source h'
  · exact hnew
  · rw [h] at ho₁
    cases ho₁

/-- **Steps keep objects well formed.** -/
theorem Step.allWellFormed (hstep : Step new flip g g') (h : g.AllWellFormed) :
    g'.AllWellFormed := by
  intro x o' ho'
  obtain ⟨-, -, hwf⟩ | ⟨o, ho, hk⟩ := hstep.source ho'
  · exact hwf
  · exact hk.wellFormed (h x o ho)

/-- **The generation grows.** -/
theorem Step.generation_lt (hstep : Step new flip g g') :
    g.generation < g'.generation := by
  cases hstep <;> simp

/-! ### Any number of steps -/

theorem Step.mono {new' : ObjectId → Prop} {flip' : Prop} (hnew : ∀ x, new x → new' x)
    (hflip : flip → flip') (h : Step new flip g g') : Step new' flip' g g' := by
  cases h with
  | insert hn habsent hwf => exact .insert (hnew _ hn) habsent hwf
  | revise kept removed added ho hrev hold hnow =>
    exact .revise kept removed added ho hrev hold hnow
  | assign hv hconst => exact .assign hv fun hc => (hconst hc).imp_right hflip
  | remove ho => exact .remove ho

theorem Steps.mono {new' : ObjectId → Prop} {flip' : Prop} (hnew : ∀ x, new x → new' x)
    (hflip : flip → flip') (h : Steps new flip g g') : Steps new' flip' g g' :=
  Relation.ReflTransGen.mono (fun _ _ hstep => Step.mono hnew hflip hstep) _ _ h

theorem Steps.exactUpTo (h : Steps new flip g g') (hg : g.ExactUpTo extra) :
    g'.ExactUpTo extra := by
  induction h with
  | refl => exact hg
  | tail _ hstep ih => exact hstep.exactUpTo ih

theorem Steps.exact (h : Steps new flip g g') (hg : g.Exact) : g'.Exact :=
  Steps.exactUpTo h hg.upTo

theorem Steps.allWellFormed (h : Steps new flip g g') (hg : g.AllWellFormed) :
    g'.AllWellFormed := by
  induction h with
  | refl => exact hg
  | tail _ hstep ih => exact hstep.allWellFormed ih

theorem Steps.generation_le (h : Steps new flip g g') : g.generation ≤ g'.generation := by
  induction h with
  | refl => exact Nat.le_refl _
  | tail _ hstep ih => exact Nat.le_trans ih (Nat.le_of_lt hstep.generation_lt)

/-- **The same generation, the same graph.** -/
theorem Steps.eq_of_generation (h : Steps new flip g g') (hgen : g'.generation = g.generation) :
    g' = g := by
  cases h with
  | refl => rfl
  | tail hsteps hstep =>
    -- a last step would have raised the generation
    have hle := generation_le hsteps
    have hlt := hstep.generation_lt
    omega

/-- What comes to be there in some step is new. -/
theorem Steps.born (h : Steps new flip g g') (hx : x ∉ g.ids) (hx' : x ∈ g'.ids) : new x := by
  induction h with
  | refl => exact absurd hx' hx
  | @tail g₁ g₂ _ hstep ih =>
    -- it came to be there in the last step or before
    by_cases hx₁ : x ∈ g₁.ids
    · exact ih hx₁
    · obtain ⟨o, ho⟩ := mem_ids_iff.1 hx'
      refine hstep.born ?_ ho
      cases ho₁ : g₁.find? x with
      | none => rfl
      | some o₁ => exact absurd (mem_ids_of_find? ho₁) hx₁

/-- An object stays a variable, and none becomes one. -/
theorem Steps.isVariable (h : Steps new flip g g') (hnew : ¬ new x) (ho' : g'.find? x = some o') :
    ∃ o, g.find? x = some o ∧ (o.IsVariable ↔ o'.IsVariable) := by
  induction h generalizing o' with
  | refl => exact ⟨o', ho', Iff.rfl⟩
  | tail _ hstep ih =>
    obtain ⟨hnew', -⟩ | ⟨o₁, ho₁, hk⟩ := hstep.source ho'
    · exact absurd hnew' hnew
    · obtain ⟨o, ho, hiff⟩ := ih ho₁
      exact ⟨o, ho, hiff.trans hk.isVariable_iff⟩

/-- **A variable that has taken no new value still has the old one**, over any number of steps. -/
theorem Steps.variable {v v' : Variable} (h : Steps new flip g g') (hnew : ¬ new x)
    (hv : g.find? x = some (.var v)) (hv' : g'.find? x = some (.var v')) :
    v.state ≤ v'.state ∧ (v'.state = v.state → v'.value = v.value) := by
  induction h generalizing v' with
  | refl =>
    rw [hv] at hv'
    cases hv'
    exact ⟨Nat.le_refl _, fun _ => rfl⟩
  | @tail g₁ g₂ hsteps hstep ih =>
    obtain ⟨hnew', -⟩ | ⟨o, ho, hk⟩ := hstep.source hv'
    · exact absurd hnew' hnew
    · -- the count of values only grows, so if it is the same in the end it always was
      obtain ⟨w, rfl⟩ := hk.var_of_var
      have h₁ := ih ho
      have h₂ := hk.variable
      refine ⟨Nat.le_trans h₁.1 h₂.1, fun heq => ?_⟩
      rw [h₂.2 (by omega), h₁.2 (by omega)]

end Graph

end ShaderLink
