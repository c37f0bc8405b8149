import ShaderLink.Linker
import ShaderLink.Proofs.Graph.Change
import ShaderLink.Proofs.Store.Referrers

/-!
# What objects refer to

An object **refers** to what it is bound to, to its members and to its link, and through calls that
are written out to their callees and arguments (`Graph.Refers`). From an object that is renamed a
linker goes back to objects that refer to it, and to no others
(`Graph.Exact.refers_of_mem_mentioning`).

Steps of a graph leave the references of an object alone as long as its revision stays, whatever
they do to values (`Graph.Steps.persists`). As long as nothing that is gone comes back, it then
refers to nothing that it did not refer to before (`Graph.Refers.of_persists`).
-/

namespace ShaderLink

theorem Object.Alike.references_eq {o o' : Object} (h : o.Alike o') :
    o'.references = o.references := by
  cases h <;> rfl

namespace Graph

variable {g g' g'' : Graph} {x y : ObjectId} {o o' : Object} {new held : ObjectId → Prop}
  {flip : Prop} {extra : ObjectId → ObjectId → Nat}

/-- Whether an object refers to another, by itself or through what is written out where it is
used. -/
inductive Refers (g : Graph) : ObjectId → ObjectId → Prop where
  | direct {x y : ObjectId} {o : Object} (ho : g.find? x = some o) (hy : y ∈ o.references) :
      Refers g x y
  | through {x y z : ObjectId} {o oz : Object} (ho : g.find? x = some o) (hz : z ∈ o.references)
      (hoz : g.find? z = some oz) (he : oz.emitted = false) (h : Refers g z y) : Refers g x y

/-- **Renaming reaches nothing but what refers to the object.** -/
theorem Exact.refers_of_mem_mentioning (h : g.Exact) (hx : x ∈ Linker.mentioning g y) :
    g.Refers x y := by
  unfold Linker.mentioning at hx
  refine (Traversal.reachable_of_mem_preorder hx).induction (p := fun z => g.Refers z y)
    (fun r hr => ?_) fun z hz w hw => ?_
  · -- the search starts from the referrers of the object
    obtain ⟨o, ho, hy⟩ := h.mem_referrersOf_iff.1 (List.mem_reverse.1 hr)
    exact .direct ho hy
  · -- and goes on from what is written out
    split at hw
    · next hany =>
      obtain ⟨oz, hoz, hwritten⟩ := (Option.any_eq_true _ _).1 hany
      obtain ⟨o, ho, hzo⟩ := h.mem_referrersOf_iff.1 (List.mem_reverse.1 hw)
      exact .through ho hzo hoz (by simpa using hwritten) hz
    · cases hw

/-! ### What steps leave alone -/

/-- What persists between two graphs: what is written out, and the references of every object whose
revision stays. -/
structure Persists (g g' : Graph) : Prop where
  keepsText : ∀ {x : ObjectId} {o o' : Object}, g.find? x = some o → g'.find? x = some o' →
    o.KeepsText o'
  revision_le : ∀ {x : ObjectId} {n n' : Node}, g.nodes[x]? = some n → g'.nodes[x]? = some n' →
    n.revision ≤ n'.revision
  references_eq : ∀ {x : ObjectId} {n n' : Node}, g.nodes[x]? = some n → g'.nodes[x]? = some n' →
    n.revision = n'.revision → n'.object.references = n.object.references

theorem Change.persists (h : Change g g') : Persists g g' where
  keepsText := h.keepsText
  revision_le := h.revision_le
  references_eq := fun hn hn' hrev => (h.alike hn hn' hrev).references_eq

theorem Persists.refl (g : Graph) : Persists g g := (Change.refl g).persists

/-- What persists twice persists, as long as nothing comes back in between. -/
theorem Persists.trans (h : Persists g g') (h' : Persists g' g'')
    (hback : ∀ x, x ∈ g.ids → x ∈ g''.ids → x ∈ g'.ids) : Persists g g'' where
  keepsText := fun ho ho'' => by
    obtain ⟨o', ho'⟩ := mem_ids_iff.1 (hback _ (mem_ids_of_find? ho) (mem_ids_of_find? ho''))
    exact (h.keepsText ho ho').trans (h'.keepsText ho' ho'')
  revision_le := fun hn hn'' => by
    obtain ⟨n', hn'⟩ := exists_node (hback _ (mem_ids_of_find? (find?_of_node hn))
      (mem_ids_of_find? (find?_of_node hn'')))
    exact Nat.le_trans (h.revision_le hn hn') (h'.revision_le hn' hn'')
  references_eq := fun hn hn'' hrev => by
    obtain ⟨n', hn'⟩ := exists_node (hback _ (mem_ids_of_find? (find?_of_node hn))
      (mem_ids_of_find? (find?_of_node hn'')))
    -- revisions never fall, so one that ends where it began was never raised
    have hle := h.revision_le hn hn'
    have hle' := h'.revision_le hn' hn''
    exact (h'.references_eq hn' hn'' (by omega)).trans (h.references_eq hn hn' (by omega))

/-- A value that is stored is no reference. -/
theorem persists_assign {id : ObjectId} {v : Variable} {value : Value}
    (hv : g.find? id = some (.var v)) :
    Persists g (g.setObject id (.var (v.store value))).advance := by
  have hnode : ∀ {x : ObjectId} {n n' : Node}, g.nodes[x]? = some n →
      (g.setObject id (.var (v.store value))).advance.nodes[x]? = some n' →
      n'.revision = n.revision ∧ n.object.KeepsText n'.object ∧
        n'.object.references = n.object.references := by
    intro x n n' hn hn'
    rw [nodes_advance, getElem?_setObject, hn] at hn'
    by_cases hx : id = x
    · subst hx
      rw [if_pos rfl] at hn'
      obtain rfl := Option.some.inj hn'
      rw [find?_of_node hn] at hv
      obtain hobject := Option.some.inj hv
      refine ⟨rfl, ?_, ?_⟩ <;> rw [hobject]
      · exact (Object.Revised.store v value).keepsText
      · rfl
    · rw [if_neg hx] at hn'
      obtain rfl := Option.some.inj hn'
      exact ⟨rfl, .refl _, rfl⟩
  refine { keepsText := fun ho ho' => ?_, revision_le := fun hn hn' => ?_,
           references_eq := fun hn hn' _ => (hnode hn hn').2.2 }
  · obtain ⟨n, hn, rfl⟩ := find?_eq_some_iff.1 ho
    obtain ⟨n', hn', rfl⟩ := find?_eq_some_iff.1 ho'
    exact (hnode hn hn').2.1
  · exact Nat.le_of_eq (hnode hn hn').1.symm

theorem Step.persists (hstep : Step new flip g g') (h : g.ExactUpTo extra) : Persists g g' := by
  cases hstep with
  | insert hnew habsent hwf =>
    exact (Step.change (.insert hnew habsent hwf : Step new False _ _) id h).persists
  | revise kept removed added ho hrev hold hnow =>
    exact (Step.change (.revise kept removed added ho hrev hold hnow : Step new False _ _) id
      h).persists
  | assign hv _ => exact persists_assign hv
  | remove ho => exact (Step.change (.remove ho : Step new False _ _) id h).persists

/-- **Steps that add nothing old leave references alone** where the revision stays. -/
theorem Steps.persists (h : Steps new flip g g') (hg : g.ExactUpTo extra)
    (hnew : ∀ x, x ∈ g.ids → ¬ new x) : Persists g g' := by
  induction h with
  | refl => exact .refl g
  | @tail g₁ g₂ hsteps hstep ih =>
    refine ih.trans (hstep.persists (Steps.exactUpTo hsteps hg)) fun x hx hx₂ => ?_
    -- otherwise the last step would have made it again
    by_contra hx₁
    exact hnew x hx (Steps.born (.single hstep) hx₁ hx₂)

/-- **No new references appear** where they persist: what an object refers to afterwards it referred
to before, if all of that was held and nothing that was held comes back. -/
theorem Refers.of_persists (h : Persists g g') (hback : ∀ z, held z → z ∈ g'.ids → z ∈ g.ids)
    (hrefers : g'.Refers x y) (ho : g.find? x = some o) (ho' : g'.find? x = some o')
    (hsame : o'.references = o.references) (hheld : ∀ z, g.Refers x z → held z) :
    g.Refers x y := by
  induction hrefers generalizing o o' with
  | direct ho₁ hy =>
    rw [ho'] at ho₁
    obtain rfl := Option.some.inj ho₁
    exact .direct ho (hsame ▸ hy)
  | @through x y z _ oz' ho₁ hz hoz' he _ ih =>
    rw [ho'] at ho₁
    obtain rfl := Option.some.inj ho₁
    rw [hsame] at hz
    -- what is written out was there before, and is what it was
    obtain ⟨oz, hoz⟩ := mem_ids_iff.1 (hback z (hheld z (.direct ho hz)) (mem_ids_of_find? hoz'))
    have hkeeps := h.keepsText hoz hoz'
    have he₀ : oz.emitted = false := hkeeps.1 ▸ he
    exact .through ho hz hoz he₀ (ih hoz hoz' (congrArg Object.references (hkeeps.2 he₀))
      fun w hw => hheld w (.through ho hz hoz he₀ hw))

end Graph

end ShaderLink
