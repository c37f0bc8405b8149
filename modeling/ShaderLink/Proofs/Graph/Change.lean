import ShaderLink.Proofs.Graph.Step

/-!
# What happens to definitions

Objects are **alike** if their definitions are made of the same things (`Object.Alike`), and some
objects **carry** a change of another (`Object.Carries`). Between two graphs of an edit, an object
whose revision stays is alike before and after, and so is whatever it carries a change of
(`Graph.Change`). Each step brings such a change about (`Step.change`), because a touch raises the
revisions of all that a change shows in. Changes compose as long as nothing that is gone comes back
(`Change.trans`), so steps that add nothing old do (`Steps.change`). Where something does come back,
what has been steady all the time still **lasts** (`Graph.Lasting`).
-/

namespace ShaderLink

namespace Object

/-- Objects whose definitions are made of the same things: the value of a variable is none of them
unless the variable is constant. -/
inductive Alike : Object → Object → Prop where
  | same (o : Object) : Alike o o
  | stored (v : Variable) (value : Option Value) (state : Nat)
      (hconst : v.qualifier = some .const → value = v.value) :
      Alike (.var v) (.var { v with value, state })

/-- Whether a change of an object shows in this one. -/
def Carries : Object → ObjectId → Prop
  | .chain c, x => x ∈ c.members
  | .call c, x => x ∈ c.callee :: c.arguments
  | .var v, x => v.link = some x
  | .function _, _ | .text _, _ => False

theorem Carries.mem_references {o : Object} {x : ObjectId} (h : o.Carries x) :
    x ∈ o.references := by
  cases o <;> simp_all [Carries, references]

theorem Alike.trans {a b c : Object} (hab : a.Alike b) (hbc : b.Alike c) : a.Alike c := by
  cases hab with
  | same => exact hbc
  | stored v value state hconst =>
    cases hbc with
    | same => exact .stored v value state hconst
    | stored _ value' state' hconst' =>
      exact .stored v value' state' fun hc => (hconst' hc).trans (hconst hc)

theorem Alike.keepsText {o o' : Object} (h : o.Alike o') : o.KeepsText o' := by
  cases h with
  | same o => exact .refl o
  | stored v value state _ => exact ⟨rfl, fun he => by cases he⟩

/-- Objects that are alike carry the same changes. -/
theorem Alike.carries_iff {o o' : Object} (h : o.Alike o') {x : ObjectId} :
    o'.Carries x ↔ o.Carries x := by
  cases h <;> exact Iff.rfl

end Object

namespace Graph

/-- An object that is there before and after with the same revision. -/
def Steady (g g' : Graph) (x : ObjectId) : Prop :=
  ∃ n n' : Node, g.nodes[x]? = some n ∧ g'.nodes[x]? = some n' ∧ n.revision = n'.revision

/-- What happens to definitions between two graphs: an object whose revision stays keeps what its
definition is made of, and whatever it carries a change of is steady as well. -/
structure Change (g g' : Graph) : Prop where
  keepsText : ∀ {x : ObjectId} {o o' : Object}, g.find? x = some o → g'.find? x = some o' →
    o.KeepsText o'
  revision_le : ∀ {x : ObjectId} {n n' : Node}, g.nodes[x]? = some n → g'.nodes[x]? = some n' →
    n.revision ≤ n'.revision
  alike : ∀ {x : ObjectId} {n n' : Node}, g.nodes[x]? = some n → g'.nodes[x]? = some n' →
    n.revision = n'.revision → n.object.Alike n'.object
  carried : ∀ {x y : ObjectId} {o : Object}, Steady g g' y → g.find? y = some o → o.Carries x →
    x ∈ g.ids → Steady g g' x

variable {g g' g'' : Graph} {id x y : ObjectId} {o o' : Object} {new : ObjectId → Prop}
  {flip : Prop} {extra : ObjectId → ObjectId → Nat}

theorem carries_of_object (hy : g.find? y = some o) (hc : o.Carries x) : g.carries x y = true := by
  cases o with
  | chain c => exact carries_of_chain hy
  | call c => exact carries_of_call hy
  | var v => exact carries_of_link hy hc
  | function s => exact hc.elim
  | text code => exact hc.elim

theorem ExactUpTo.mem_carriers (h : g.ExactUpTo extra) (hy : g.find? y = some o)
    (hc : o.Carries x) : y ∈ g.carriers x :=
  mem_carriers_iff.2 ⟨h.mem_referrersOf hy hc.mem_references, carries_of_object hy hc⟩

/-! ### One step -/

theorem Steady.mem_ids (h : Steady g g' x) : x ∈ g.ids ∧ x ∈ g'.ids := by
  obtain ⟨n, n', hn, hn', -⟩ := h
  exact ⟨mem_ids_of_find? (find?_of_node hn), mem_ids_of_find? (find?_of_node hn')⟩

theorem Steady.trans (h : Steady g g' x) (h' : Steady g' g'' x) : Steady g g'' x := by
  obtain ⟨n, n', hn, hn', hrev⟩ := h
  obtain ⟨m', n'', hm', hn'', hrev'⟩ := h'
  rw [hn'] at hm'
  obtain rfl := Option.some.inj hm'
  exact ⟨n, n'', hn, hn'', hrev.trans hrev'⟩

/-- The objects of a steady identifier are alike. -/
theorem Change.alike_of_steady (h : Change g g') (hx : Steady g g' x) (ho : g.find? x = some o)
    (ho' : g'.find? x = some o') : o.Alike o' := by
  obtain ⟨n, n', hn, hn', hrev⟩ := hx
  rw [find?_of_node hn] at ho
  rw [find?_of_node hn'] at ho'
  obtain rfl := Option.some.inj ho
  obtain rfl := Option.some.inj ho'
  exact h.alike hn hn' hrev

/-- Where every object is alike afterwards and no revision is raised, nothing happens to
definitions. -/
theorem change_of_alike (h : ∀ (x : ObjectId) (n : Node), g.nodes[x]? = some n →
    ∃ o', g'.nodes[x]? = some ⟨o', n.revision⟩ ∧ n.object.Alike o') : Change g g' where
  keepsText := fun ho ho' => by
    obtain ⟨n, hn, rfl⟩ := find?_eq_some_iff.1 ho
    obtain ⟨o', hn', halike⟩ := h _ n hn
    rw [find?_of_node hn'] at ho'
    exact Option.some.inj ho' ▸ halike.keepsText
  revision_le := fun hn hn' => by
    obtain ⟨o', ho', -⟩ := h _ _ hn
    rw [ho'] at hn'
    exact Option.some.inj hn' ▸ Nat.le_refl _
  alike := fun hn hn' _ => by
    obtain ⟨o', ho', halike⟩ := h _ _ hn
    rw [ho'] at hn'
    exact Option.some.inj hn' ▸ halike
  carried := fun _ _ _ hx => by
    obtain ⟨n, hn⟩ := exists_node hx
    obtain ⟨o', ho', -⟩ := h _ n hn
    exact ⟨n, _, hn, ho', rfl⟩

/-- A touch after a change of one object. What it does not affect is steady, and it affects what the
change shows in. -/
theorem change_touch {g₁ : Graph} (hout : ∀ x : ObjectId, id ≠ x → g₁.nodes[x]? = g.nodes[x]?)
    (hself : ∀ n n₁ : Node, g.nodes[id]? = some n → g₁.nodes[id]? = some n₁ →
      n₁.revision = n.revision ∧ n.object.KeepsText n₁.object) (hex : g₁.ExactUpTo extra) :
    Change g (g₁.touch id) := by
  -- before the touch, all objects are what they were up to what is written out of one of them
  have hbefore : ∀ {x : ObjectId} {n n₁ : Node}, g.nodes[x]? = some n → g₁.nodes[x]? = some n₁ →
      n₁.revision = n.revision ∧ n.object.KeepsText n₁.object := by
    intro x n n₁ hn hn₁
    by_cases hx : id = x
    · exact hself n n₁ (hx ▸ hn) (hx ▸ hn₁)
    · rw [hout x hx, hn] at hn₁
      obtain rfl := Option.some.inj hn₁
      exact ⟨rfl, .refl _⟩
  -- what is affected is raised, and so is not steady
  have hsteady : ∀ {x : ObjectId}, Steady g (g₁.touch id) x → x ∉ g₁.affected id := by
    rintro x ⟨n, n', hn, hn', hrev⟩ hx
    obtain ⟨n₁, hn₁, -, hn'⟩ := node_of_touch hn'
    rw [if_pos hx, (hbefore hn hn₁).1] at hn'
    omega
  have hne : ∀ {x : ObjectId}, x ∉ g₁.affected id → id ≠ x := by
    rintro x hx rfl
    exact hx self_mem_affected
  refine { keepsText := fun ho ho' => ?_, revision_le := fun hn hn' => ?_,
           alike := fun hn hn' hrev => ?_, carried := @fun x y o hy ho hc hx => ?_ }
  · obtain ⟨n, hn, rfl⟩ := find?_eq_some_iff.1 ho
    obtain ⟨n', hn', rfl⟩ := find?_eq_some_iff.1 ho'
    obtain ⟨n₁, hn₁, hr, -⟩ := node_of_touch hn'
    exact (hbefore hn hn₁).2.trans hr.keepsText
  · obtain ⟨n₁, hn₁, -, hn'⟩ := node_of_touch hn'
    rw [hn', (hbefore hn hn₁).1]
    exact Nat.le_add_right _ _
  · have hx := hsteady ⟨_, _, hn, hn', hrev⟩
    rw [getElem?_touch_of_not_affected hx, hout _ (hne hx), hn] at hn'
    exact Option.some.inj hn' ▸ .same _
  · -- whatever carries a change of something affected is affected itself
    have hy := hsteady hy
    have ho₁ : g₁.find? y = some o := by rw [find?_congr (hout y (hne hy)), ho]
    have hxa : x ∉ g₁.affected id := fun hx => hy (affected_carrier hx (hex.mem_carriers ho₁ hc))
    obtain ⟨n, hn⟩ := exists_node hx
    refine ⟨n, n, hn, ?_, rfl⟩
    rw [getElem?_touch_of_not_affected hxa, hout x (hne hxa), hn]

/-- **A step changes no definition without raising its revision**, unless a zero takes the place of
the other. -/
theorem Step.change (hstep : Step new flip g g') (hflip : ¬ flip) (h : g.ExactUpTo extra) :
    Change g g' := by
  cases hstep with
  | @insert id o _ habsent _ =>
    -- what was there before is not what is inserted
    refine change_of_alike fun x n hn => ⟨n.object, ?_, .same _⟩
    have hx : id ≠ x := by
      rintro rfl
      rw [find?_eq_none_iff, hn] at habsent
      cases habsent
    rw [getElem?_insert, if_neg hx, hn]
  | @revise id o o' _ _ _ ho hrev hold hnow =>
    refine change_touch (fun x hx => by rw [getElem?_revise, if_neg hx]) ?_
      (h.revise ho hold hnow)
    intro n n₁ hn hn₁
    rw [getElem?_revise, if_pos rfl, hn] at hn₁
    obtain rfl := Option.some.inj hn₁
    rw [find?_of_node hn] at ho
    exact ⟨rfl, Option.some.inj ho ▸ hrev.keepsText⟩
  | @remove id o ho =>
    -- what is removed is gone, so there is nothing to compare it with
    refine change_touch (fun x hx => by rw [getElem?_discard, if_neg hx]) ?_ (h.discard ho)
    intro n n₁ _ hn₁
    rw [getElem?_discard, if_pos rfl] at hn₁
    cases hn₁
  | @assign id v value hv hconst =>
    refine change_of_alike fun x n hn => ?_
    rw [nodes_advance, getElem?_setObject]
    by_cases hx : id = x
    · -- the value is part of the definition of a constant only, and that keeps its value
      subst hx
      rw [if_pos rfl, hn]
      rw [find?_of_node hn] at hv
      exact ⟨_, rfl, Option.some.inj hv ▸
        .stored v (some value) (v.state + 1) fun hc => ((hconst hc).resolve_right hflip).symm⟩
    · rw [if_neg hx]
      exact ⟨n.object, hn, .same _⟩

/-! ### Any number of steps -/

theorem Change.refl (g : Graph) : Change g g :=
  change_of_alike fun _ n hn => ⟨n.object, hn, .same _⟩

/-- Steady over two changes is steady over each, if the object was there all the time. -/
theorem Steady.split (h : Change g g') (h' : Change g' g'')
    (hback : x ∈ g.ids → x ∈ g''.ids → x ∈ g'.ids) (hs : Steady g g'' x) :
    Steady g g' x ∧ Steady g' g'' x := by
  obtain ⟨hx, hx''⟩ := hs.mem_ids
  obtain ⟨n, n'', hn, hn'', hrev⟩ := hs
  obtain ⟨n', hn'⟩ := exists_node (hback hx hx'')
  -- revisions never fall, so one that ends where it began was never raised
  have h₁ := h.revision_le hn hn'
  have h₂ := h'.revision_le hn' hn''
  exact ⟨⟨n, n', hn, hn', by omega⟩, ⟨n', n'', hn', hn'', by omega⟩⟩

/-- Changes compose as long as nothing comes back in the second that went in the first. -/
theorem Change.trans (h : Change g g') (h' : Change g' g'')
    (hback : ∀ x, x ∈ g.ids → x ∈ g''.ids → x ∈ g'.ids) : Change g g'' where
  keepsText := fun ho ho'' => by
    obtain ⟨o', ho'⟩ := mem_ids_iff.1 (hback _ (mem_ids_of_find? ho) (mem_ids_of_find? ho''))
    exact (h.keepsText ho ho').trans (h'.keepsText ho' ho'')
  revision_le := fun hn hn'' => by
    obtain ⟨n', hn'⟩ := exists_node (hback _ (mem_ids_of_find? (find?_of_node hn))
      (mem_ids_of_find? (find?_of_node hn'')))
    exact Nat.le_trans (h.revision_le hn hn') (h'.revision_le hn' hn'')
  alike := fun hn hn'' hrev => by
    obtain ⟨h₁, h₂⟩ := Steady.split h h' (hback _) ⟨_, _, hn, hn'', hrev⟩
    obtain ⟨n', hn'⟩ := exists_node h₁.mem_ids.2
    exact (h.alike_of_steady h₁ (find?_of_node hn) (find?_of_node hn')).trans
      (h'.alike_of_steady h₂ (find?_of_node hn') (find?_of_node hn''))
  carried := fun hy ho hc hx => by
    obtain ⟨hy₁, hy₂⟩ := Steady.split h h' (hback _) hy
    have hx₁ := h.carried hy₁ ho hc hx
    -- in between, the same changes are carried
    obtain ⟨o', ho'⟩ := mem_ids_iff.1 hy₁.mem_ids.2
    have hc' := (h.alike_of_steady hy₁ ho ho').carries_iff.2 hc
    exact hx₁.trans (h'.carried hy₂ ho' hc' hx₁.mem_ids.2)

/-- What was there and is not new was there all the time. -/
theorem Steps.change (h : Steps new flip g g') (hflip : ¬ flip) (hg : g.ExactUpTo extra)
    (hnew : ∀ x, x ∈ g.ids → ¬ new x) : Change g g' := by
  induction h with
  | refl => exact .refl g
  | @tail g₁ g₂ hsteps hstep ih =>
    refine ih.trans (hstep.change hflip (Steps.exactUpTo hsteps hg)) fun x hx hx₂ => ?_
    -- otherwise the last step would have made it again
    by_contra hx₁
    exact hnew x hx (Steps.born (.single hstep) hx₁ hx₂)

/-! ### What lasts -/

/-- **Objects that last** from one graph to another: they are there before and after, their
definitions are made of the same things, and whatever they carry a change of lasts as well. -/
structure Lasting (p : ObjectId → Prop) (g g' : Graph) : Prop where
  mem_ids : ∀ {x : ObjectId}, p x → x ∈ g.ids ∧ x ∈ g'.ids
  alike : ∀ {x : ObjectId} {o o' : Object}, p x → g.find? x = some o → g'.find? x = some o' →
    o.Alike o'
  carried : ∀ {x y : ObjectId} {o : Object}, p y → g.find? y = some o → o.Carries x → x ∈ g.ids →
    p x

/-- What is steady over a change lasts. -/
theorem Change.lasting (h : Change g g') : Lasting (Steady g g') g g' where
  mem_ids := Steady.mem_ids
  alike := h.alike_of_steady
  carried := h.carried

/-- What lasts twice lasts, whatever else goes and comes back in the meantime. -/
theorem Lasting.trans {p p' : ObjectId → Prop} (h : Lasting p g g') (h' : Lasting p' g' g'') :
    Lasting (fun x => p x ∧ p' x) g g'' where
  mem_ids := fun hx => ⟨(h.mem_ids hx.1).1, (h'.mem_ids hx.2).2⟩
  alike := fun hx ho ho'' => by
    obtain ⟨o', ho'⟩ := mem_ids_iff.1 (h.mem_ids hx.1).2
    exact (h.alike hx.1 ho ho').trans (h'.alike hx.2 ho' ho'')
  carried := fun hy ho hc hx => by
    have hx₁ := h.carried hy.1 ho hc hx
    -- in between, the same changes are carried
    obtain ⟨o', ho'⟩ := mem_ids_iff.1 (h.mem_ids hy.1).2
    have hc' := (h.alike hy.1 ho ho').carries_iff.2 hc
    exact ⟨hx₁, h'.carried hy.2 ho' hc' (h.mem_ids hx₁).2⟩

end Graph

end ShaderLink
