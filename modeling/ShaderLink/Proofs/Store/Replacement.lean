import ShaderLink.Proofs.Store.Referrers

/-!
# Objects in the place of others

An object may be added under an identifier that is taken. It replaces the object that is there, and
its references are recorded, but the references of the object that it replaces are not taken back
(`Graph.ExactUpTo.insert`). Removing the object and adding the other would take them back.

What is left over belongs to no object, so no edit ever takes it back either
(`Store.performAll_exactUpTo`). A replacement therefore keeps the record exact just if the object
that is replaced refers to nothing (`Store.replacement_leaves_references`), and otherwise the
identifier is listed for ever among the referrers of what that object referred to, also after its
bindings are gone and after it is gone itself.
-/

namespace ShaderLink

namespace Graph

variable {g : Graph} {extra : ObjectId → ObjectId → Nat} {x y : ObjectId}

/-- References are exact just if nothing is recorded besides. -/
theorem ExactUpTo.exact_iff (h : g.ExactUpTo extra) : g.Exact ↔ ∀ x y, extra x y = 0 := by
  refine forall₂_congr fun x y => ?_
  rw [h x y]
  exact Nat.add_eq_left

end Graph

namespace Store

variable {s t : Store} {id id' : ObjectId} {old o : Object}
  {extra : ObjectId → ObjectId → Nat}

/-- What answers to being added is there, up to the types of a chain. -/
theorem of_run_add (h : (add id o).run s = .ok id' t) :
    ∃ o', o.Retyped o' ∧ t = { s with graph := s.graph.insert id o' } := by
  cases o with
  | chain c =>
    -- asking for the members and for their types leaves the store as it is
    obtain ⟨_, s₁, heach, hrest⟩ := run_bind_eq_ok_iff.1 h
    obtain rfl : s₁ = s := (stateAfter_eq_of_ok heach).symm.trans
      (stateAfter_askEach c.members (fun id g => g.callable id) s)
    obtain ⟨types, s₂, htypes, hinsert⟩ := run_bind_eq_ok_iff.1 hrest
    obtain rfl : s₂ = s₁ := (stateAfter_eq_of_ok htypes).symm.trans (stateAfter_ask _ s₁)
    cases hinsert
    exact ⟨_, Object.retyped_withTypes c types, rfl⟩
  | _ =>
    cases h
    exact ⟨_, .same _, rfl⟩

/-- An object that is added may leave more behind. -/
theorem exists_exactUpTo_add (id : ObjectId) (o : Object) (h : s.graph.ExactUpTo extra) :
    ∃ extra', (stateAfter (add id o) s).graph.ExactUpTo extra' := by
  obtain hsame | ⟨o', -, hinsert⟩ := stateAfter_add id o s
  · rw [hsame]
    exact ⟨extra, h⟩
  · rw [hinsert]
    exact ⟨_, h.insert id o'⟩

/-- The store after edits, one after the other. -/
def performAll (ops : List Operation) (s : Store) : Store :=
  ops.foldl (fun s op => op.perform s) s

theorem performAll_lawful (ops : List Operation) (hs : s.Lawful) : (s.performAll ops).Lawful := by
  induction ops generalizing s with
  | nil => exact hs
  | cons op ops ih => exact ih ((op.evolves hs).lawful hs)

/-- **No edit takes back what belongs to no object.** -/
theorem performAll_exactUpTo (ops : List Operation) (hs : s.Lawful)
    (h : s.graph.ExactUpTo extra) : (s.performAll ops).graph.ExactUpTo extra := by
  induction ops generalizing s with
  | nil => exact h
  | cons op ops ih =>
    have hop := op.evolves hs
    exact ih (hop.lawful hs) (Graph.Steps.exactUpTo hop.steps h)

theorem performAll_exact (ops : List Operation) (hs : s.Lawful) (h : s.graph.Exact) :
    (s.performAll ops).graph.Exact :=
  performAll_exactUpTo ops hs h.upTo

/-- The references of an object that was replaced. -/
def leftover (id : ObjectId) (old : Object) (x y : ObjectId) : Nat :=
  if id = y then old.references.count x else 0

theorem leftover_pos_iff {x y : ObjectId} :
    0 < leftover id old x y ↔ y = id ∧ x ∈ old.references := by
  unfold leftover
  split
  · next h => simp [h, List.count_pos_iff]
  · next h => simp [Ne.symm h]

theorem leftover_eq_zero_iff : (∀ x y, leftover id old x y = 0) ↔ old.references = [] := by
  refine ⟨fun h => List.eq_nil_iff_forall_not_mem.2 fun x hx => ?_, fun h x y => ?_⟩
  · exact Nat.ne_of_gt (leftover_pos_iff.2 ⟨rfl, hx⟩) (h x id)
  · simp [leftover, h]

/-- A replacement records what the object that is replaced referred to besides what it should. -/
theorem exactUpTo_replaced (h : s.graph.Exact) (hold : s.graph.find? id = some old)
    (hadd : (add id o).run s = .ok id' t) : t.graph.ExactUpTo (leftover id old) := by
  obtain ⟨o', -, rfl⟩ := of_run_add hadd
  have hinsert := h.upTo.insert id o'
  -- nothing was recorded besides before, so only the references of what is replaced are
  simp only [Nat.zero_add, Graph.mentions_of_find? hold] at hinsert
  exact hinsert

/-- **What a replacement leaves behind.** In a store whose references are exact, an object is put in
the place of another. From then on the record holds, besides the references of the objects that are
there, those of the object that was replaced, so it is exact just if there were none. Edits do not
change that: the identifier goes on being listed among the referrers of whatever the replaced object
referred to, whether or not the object that has the identifier refers to it or is there. -/
theorem replacement_leaves_references (h : s.graph.Exact) (hold : s.graph.find? id = some old)
    (hadd : (add id o).run s = .ok id' t) :
    (∀ x y, t.graph.referrers.count x y =
      t.graph.mentions x y + if id = y then old.references.count x else 0) ∧
    (t.graph.Exact ↔ old.references = []) ∧
    (s.Lawful → o.WellFormed → ∀ (ops : List Operation) x y,
      y ∈ (t.performAll ops).graph.referrersOf x ↔
        (∃ o', (t.performAll ops).graph.find? y = some o' ∧ x ∈ o'.references) ∨
          y = id ∧ x ∈ old.references) := by
  have hexact := exactUpTo_replaced h hold hadd
  refine ⟨hexact, hexact.exact_iff.trans leftover_eq_zero_iff, fun hs ho ops x y => ?_⟩
  have hid := hs.bounded id (Graph.mem_ids_of_find? hold)
  have hlawful : t.Lawful := stateAfter_eq_of_ok hadd ▸ (Session.lawful_add hs ho hid).1
  rw [(performAll_exactUpTo ops hlawful hexact).mem_referrersOf_iff, leftover_pos_iff]

/-- A function with a variable bound to its placeholder. -/
def boundSnippet : Snippet where
  code := "float $f() { return $a; }"
  signature := { name := "f", anonymous := true, arguments := [], result := "float" }
  template := Template.parse "float $f() { return $a; }"
  placeholders := ["a"]
  staticNames := []
  bindings := (∅ : Std.ExtTreeMap String ObjectId).insert "a" ⟨2⟩
  requires := []
  replacements := []

/-- The store of the function and the variable. -/
def boundStore : Store :=
  empty.performAll [.function "float $f() { return $a; }", .valued "level" (.int 3),
    .bind ⟨1⟩ "a" ⟨2⟩]

theorem lawful_boundStore : boundStore.Lawful :=
  performAll_lawful _ (Session.lawful_empty.store 0)

theorem exact_boundStore : boundStore.graph.Exact :=
  performAll_exact _ (Session.lawful_empty.store 0) fun _ _ => rfl

theorem find?_boundStore : boundStore.graph.find? ⟨1⟩ = some (.function boundSnippet) := by
  decide +kernel

/-- The function as it was before the variable was bound takes its own place, and is removed. It is
still listed among the referrers of the variable. -/
theorem replacement_leaves_references_unbound :
    boundStore.graph.Exact ∧ boundStore.graph.find? ⟨1⟩ = some (.function boundSnippet) ∧
    ∃ t, (add ⟨1⟩ (.function (boundSnippet.unbind "a"))).run boundStore = .ok ⟨1⟩ t ∧
      ¬ t.graph.Exact ∧ t.graph.referrers.count ⟨2⟩ ⟨1⟩ = 1 ∧ t.graph.mentions ⟨2⟩ ⟨1⟩ = 0 ∧
      ⟨1⟩ ∈ (t.performAll [.remove ⟨1⟩]).graph.referrersOf ⟨2⟩ := by
  have hrefers : ⟨2⟩ ∈ (Object.function boundSnippet).references := by decide +kernel
  have hwf : (Object.function (boundSnippet.unbind "a")).WellFormed :=
    Snippet.WellFormed.unbind (lawful_boundStore.wellFormed _ _ find?_boundStore) "a"
  obtain ⟨hcount, hexact, hedits⟩ := replacement_leaves_references exact_boundStore find?_boundStore
    (o := .function (boundSnippet.unbind "a")) rfl
  refine ⟨exact_boundStore, find?_boundStore, _, rfl, fun h => ?_, ?_, by decide +kernel, ?_⟩
  · rw [hexact.1 h] at hrefers
    cases hrefers
  · rw [hcount ⟨2⟩ ⟨1⟩]
    decide +kernel
  · exact (hedits lawful_boundStore hwf [.remove ⟨1⟩] ⟨2⟩ ⟨1⟩).2 (.inr ⟨rfl, hrefers⟩)

/-- The function takes its own place as it is. Its one reference is counted twice from then on, and
it is still listed among the referrers of the variable when the variable is no longer bound. -/
theorem replacement_counts_twice :
    boundStore.graph.Exact ∧ boundStore.graph.find? ⟨1⟩ = some (.function boundSnippet) ∧
    ∃ t, (add ⟨1⟩ (.function boundSnippet)).run boundStore = .ok ⟨1⟩ t ∧
      t.graph.referrers.count ⟨2⟩ ⟨1⟩ = 2 ∧ t.graph.mentions ⟨2⟩ ⟨1⟩ = 1 ∧ ¬ t.graph.Exact ∧
      (t.performAll [.unbind ⟨1⟩ "a"]).graph.mentions ⟨2⟩ ⟨1⟩ = 0 ∧
      ⟨1⟩ ∈ (t.performAll [.unbind ⟨1⟩ "a"]).graph.referrersOf ⟨2⟩ := by
  refine ⟨exact_boundStore, find?_boundStore, _, rfl, by decide +kernel, by decide +kernel,
    fun h => ?_, by decide +kernel, by decide +kernel⟩
  exact absurd (h ⟨2⟩ ⟨1⟩) (by decide +kernel)

end Store

namespace Session

variable {σ : Session}

/-- Whatever an action does, what a graph records besides the references of its objects is known. -/
theorem exists_exactUpTo_perform (h : σ.Lawful) {a : Action} (ha : a.Possible σ) {k : Nat}
    {extra : ObjectId → ObjectId → Nat} (hexact : (σ.graphs k).ExactUpTo extra) :
    ∃ extra', ((a.perform σ).graphs k).ExactUpTo extra' := by
  obtain ⟨id, o, rfl, hgraph⟩ | hadds := a.adds_cases σ k
  · rw [hgraph]
    exact Store.exists_exactUpTo_add id o hexact
  · have hedited := Action.edited h ha hadds
    exact ⟨extra, Graph.Steps.exactUpTo hedited.steps hexact⟩

theorem Reachable.exists_exactUpTo (h : σ.Reachable) (k : Nat) :
    ∃ extra, (σ.graphs k).ExactUpTo extra := by
  induction h with
  | empty => exact ⟨fun _ _ => 0, fun _ _ => rfl⟩
  | act h a ha ih =>
    obtain ⟨extra, hexact⟩ := ih
    exact exists_exactUpTo_perform h.lawful ha hexact

end Session

end ShaderLink
