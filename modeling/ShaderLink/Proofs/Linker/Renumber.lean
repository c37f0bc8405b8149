import Mathlib.Logic.Equiv.Basic
import ShaderLink.Proofs.Renumber.Linker

/-!
# Pretty names do not depend on identifiers

Which identifiers objects get depends on everything that was made before them, in whatever graph. A
graph can be **renumbered** as a whole (`Graph.renumber`): every identifier in it, wherever it is
found, becomes another one. With pretty names the renumbered graph is linked from scratch with the
same sources, and of its objects the same are emitted in the same order (`Linker.link_renumber`).

The renumbered graph holds what it holds in another order, and nothing may depend on that order. That
nothing does is no part of the proof: the graph mirrors the one that it was made from, and there the
look-ups are all that counts.
-/

namespace ShaderLink

variable {f : ObjectId → ObjectId} {β γ : Type} {k : β → γ} {m : Std.ExtTreeMap ObjectId β}

/-! ### Maps -/

/-- A map with other keys, and with other values. -/
def rekey (f : ObjectId → ObjectId) (k : β → γ) (m : Std.ExtTreeMap ObjectId β) :
    Std.ExtTreeMap ObjectId γ :=
  .ofList (m.toList.map fun p => (f p.1, k p.2))

/-- What is found in the map is found under the other key. -/
theorem getElem?_rekey_of_some (hf : Function.Injective f) {x : ObjectId} {b : β}
    (hx : m[x]? = some b) : (rekey f k m)[f x]? = some (k b) := by
  have hdistinct : (m.toList.map fun p => (f p.1, k p.2)).Pairwise
      fun p q => ¬ compare p.1 q.1 = .eq := by
    refine List.pairwise_map.2 (Std.ExtTreeMap.distinct_keys_toList.imp fun hne heq => hne ?_)
    exact Std.LawfulEqOrd.compare_eq_iff_eq.2 (hf (Std.LawfulEqOrd.compare_eq_iff_eq.1 heq))
  refine Std.ExtTreeMap.getElem?_ofList_of_mem Std.ReflOrd.compare_self hdistinct ?_
  exact List.mem_map.2 ⟨(x, b), Std.ExtTreeMap.mem_toList_iff_getElem?_eq_some.2 hx, rfl⟩

/-- What is found under a key was found in the map, under a key that it was made from. -/
theorem exists_of_getElem?_rekey (hf : Function.Injective f) {y : ObjectId} {c : γ}
    (hy : (rekey f k m)[y]? = some c) : ∃ x b, f x = y ∧ m[x]? = some b ∧ k b = c := by
  by_cases hmem : y ∈ (m.toList.map fun p => (f p.1, k p.2)).map Prod.fst
  · simp only [List.map_map, List.mem_map] at hmem
    obtain ⟨⟨x, b⟩, hxb, rfl⟩ := hmem
    have hx := Std.ExtTreeMap.mem_toList_iff_getElem?_eq_some.1 hxb
    have hc := (getElem?_rekey_of_some (k := k) hf hx).symm.trans hy
    exact ⟨x, b, rfl, hx, Option.some.inj hc⟩
  · have hnone : (rekey f k m)[y]? = none :=
      Std.ExtTreeMap.getElem?_ofList_of_contains_eq_false (by simpa using hmem)
    rw [hnone] at hy
    cases hy

/-- **Looking up under the other key** finds the other value. -/
theorem getElem?_rekey (hf : Function.Injective f) (x : ObjectId) :
    (rekey f k m)[f x]? = m[x]?.map k := by
  cases hx : m[x]? with
  | some b => exact getElem?_rekey_of_some hf hx
  | none =>
    refine Option.eq_none_iff_forall_ne_some.2 fun c hc => ?_
    obtain ⟨x', b, heq, hx', -⟩ := exists_of_getElem?_rekey hf hc
    rw [hf heq, hx] at hx'
    cases hx'

/-! ### Graphs -/

/-- The same references between objects with other identifiers. -/
def Referrers.renumber (f : ObjectId → ObjectId) (r : Referrers) : Referrers :=
  ⟨rekey f (List.map f) r.records⟩

namespace Graph

/-- **The graph with other identifiers** throughout. -/
def renumber (f : ObjectId → ObjectId) (g : Graph) : Graph :=
  { g with
    nodes := rekey f (fun node => { node with object := node.object.renumber f }) g.nodes
    referrers := g.referrers.renumber f }

variable {g : Graph}

theorem find?_renumber (hf : Function.Injective f) (x : ObjectId) :
    (g.renumber f).find? (f x) = (g.find? x).map (Object.renumber f) := by
  unfold find? renumber
  rw [getElem?_rekey hf, Option.map_map, Option.map_map]
  rfl

/-- What a renumbered graph holds was renumbered. -/
theorem exists_of_find?_renumber (hf : Function.Injective f) {y : ObjectId} {o : Object}
    (hy : (g.renumber f).find? y = some o) :
    ∃ x o₀, f x = y ∧ g.find? x = some o₀ ∧ o₀.renumber f = o := by
  obtain ⟨node, hnode, rfl⟩ := Option.map_eq_some_iff.1 hy
  obtain ⟨x, node₀, rfl, hx, rfl⟩ := exists_of_getElem?_rekey hf hnode
  exact ⟨x, node₀.object, rfl, by rw [find?, hx]; rfl, rfl⟩

theorem AllWellFormed.renumber (h : g.AllWellFormed) (hf : Function.Injective f) :
    (g.renumber f).AllWellFormed := by
  intro y o hy
  obtain ⟨x, o₀, -, hx, rfl⟩ := exists_of_find?_renumber hf hy
  exact (h x o₀ hx).renumber

/-- A renumbered graph mirrors the graph, all of it. -/
theorem mirrors_renumber (hf : Function.Injective f) :
    Mirrors f (fun _ => True) g (g.renumber f) where
  injective := hf
  find?_eq := fun x _ => find?_renumber hf x
  dependency := fun _ _ _ _ => trivial
  link := fun _ _ _ _ => trivial

end Graph

namespace Linker

/-- **Pretty names do not depend on identifiers.** When all identifiers of a graph and of the stages
are replaced by others, no two by the same, a new linker with pretty names answers if it did before,
with the same sources and with the same objects under their other identifiers. Otherwise it fails
with the same error, about them. -/
theorem link_renumber {g : Graph} (hwf : g.AllWellFormed) (hf : Function.Injective f)
    (stages : Stages StageMain) (settings : Settings) (hpretty : settings.naming = .pretty) :
    outcome (link (g.renumber f) (stages.map (StageMain.renumber f))) (new settings) =
      ((outcome (link g stages) (new settings)).map (Linked.renumber f)).mapError
        (LinkError.renumber f) := by
  have hmirrors := Graph.mirrors_renumber (g := g) hf
  have hroots : ∀ r ∈ stages.toList.flatMap StageMain.roots, True := fun _ _ => trivial
  exact (hmirrors.outcome_link hwf (hwf.renumber hf) hroots settings (.inl hpretty)).eq_map

/-- A session in which two uniforms of one name are bound to a function. -/
def namesakeSession : Session :=
  Session.empty.edited 0 [.valued "u" (.int 1), .valued "u" (.int 2),
    .function "void $f() { x = $a + $b; }", .bind ⟨3⟩ "a" ⟨1⟩, .bind ⟨3⟩ "b" ⟨2⟩]

/-- A stage to which that function is attached. -/
def namesakeStages : Stages StageMain := ⟨some (hookMain.attach ⟨"hook", ⟨3⟩, none⟩), none⟩

/-- The identifiers of the two uniforms exchanged. -/
def exchanged : ObjectId → ObjectId := Equiv.swap ⟨1⟩ ⟨2⟩

/-- The uniform that is bound first is named and emitted first, whichever of the two has the lower
identifier. -/
theorem link_renumber_namesakes :
    (namesakeSession.graphs 0).AllWellFormed ∧ Function.Injective exchanged ∧
    ∃ linked, outcome (link (namesakeSession.graphs 0) namesakeStages) (new .default) = .ok linked ∧
      linked.objects = [⟨1⟩, ⟨2⟩, ⟨3⟩] ∧
      outcome (link ((namesakeSession.graphs 0).renumber exchanged)
        (namesakeStages.map (StageMain.renumber exchanged))) (new .default) =
        .ok ⟨linked.sources, [⟨2⟩, ⟨1⟩, ⟨3⟩]⟩ := by
  have hsession : Session.ReachableBy (fun _ _ => True) namesakeSession :=
    Session.ReachableBy.empty.edited fun _ _ _ => trivial
  have hwf : (namesakeSession.graphs 0).AllWellFormed :=
    (hsession.reachable.lawful.store 0).wellFormed
  have hinjective : Function.Injective exchanged := Equiv.injective _
  have hrenumber := link_renumber hwf hinjective namesakeStages .default rfl
  have hobjects : (outcome (link (namesakeSession.graphs 0) namesakeStages)
      (new .default)).toOption.map Linked.objects = some [⟨1⟩, ⟨2⟩, ⟨3⟩] := by decide +kernel
  refine ⟨hwf, hinjective, ?_⟩
  cases hlink : outcome (link (namesakeSession.graphs 0) namesakeStages) (new .default) with
  | error e =>
    rw [hlink] at hobjects
    cases hobjects
  | ok linked =>
    rw [hlink] at hobjects hrenumber
    obtain hobjects : linked.objects = [⟨1⟩, ⟨2⟩, ⟨3⟩] := Option.some.inj hobjects
    have hexchanged : linked.objects.map exchanged = [⟨2⟩, ⟨1⟩, ⟨3⟩] := by
      rw [hobjects]
      decide
    refine ⟨linked, rfl, hobjects, hrenumber.trans ?_⟩
    exact congrArg Except.ok (congrArg (Linked.mk linked.sources) hexchanged)

end Linker

end ShaderLink
