import ShaderLink.Proofs.Closure.Collect
import ShaderLink.Proofs.Traversal.Leaving

/-!
# The order of a closure

What is emitted in a stage is its **emission** (`Graph.emission`): the emitted objects that its
roots lead to, in the order in which a traversal leaves them. A closure lists the emission of each
stage, and over all stages whatever is emitted once, where it is emitted first
(`Closure.order_of_collect`). As nothing that is collected depends on itself, each object comes
after everything it leads to (`Closure.Collected.idxOf_emission_lt`).
-/

namespace ShaderLink

namespace Graph

variable {g : Graph} {m : StageMain} {x : ObjectId}

/-- The emitted objects that the roots of a stage lead to, in leaving order. -/
def emission (g : Graph) (m : StageMain) : List ObjectId :=
  (Traversal.postorder g.dependencies (g.horizon m.roots) m.roots).filter g.emits

theorem mem_emission :
    x ∈ g.emission m ↔ Traversal.Reachable g.dependencies m.roots x ∧ g.Emits x := by
  have hpostorder : x ∈ Traversal.postorder g.dependencies (g.horizon m.roots) m.roots ↔
      Traversal.Reachable g.dependencies m.roots x := Traversal.mem_postorder_iff fun _ => mem_horizon
  rw [emission, List.mem_filter, hpostorder, emits_iff]

theorem nodup_emission : (g.emission m).Nodup :=
  Traversal.nodup_postorder.filter _

end Graph

namespace Closure

variable {g : Graph} {stages : Stages StageMain} {c c' : Closure} {m : StageMain} {x y : ObjectId}
  {listed : List ObjectId}

theorem eraseDups_of_nodup {l : List ObjectId} (h : l.Nodup) : l.eraseDups = l := by
  induction l with
  | nil => rfl
  | cons a l ih =>
    obtain ⟨ha, hl⟩ := List.nodup_cons.1 h
    have hfilter : l.filter (fun b => !b == a) = l := by
      refine List.filter_eq_self.2 fun b hb => ?_
      have hne : b ≠ a := fun hba => ha (hba ▸ hb)
      simpa using hne
    rw [List.eraseDups_cons, hfilter, ih hl]

/-- A stage adds its emission. -/
theorem order_of_addStage {stage : Stage} (h : addStage g c stage m = .ok c')
    (hc : c.objects = listed.eraseDups) :
    c'.stages = c.stages.set (g.emission m) stage ∧
      c'.objects = (listed ++ g.emission m).eraseDups := by
  unfold addStage at h
  obtain ⟨_, -, h⟩ := Except.bind_eq_ok_iff.1 h
  obtain ⟨emitted, hvalidated, h⟩ := Except.bind_eq_ok_iff.1 h
  obtain ⟨required, -, h⟩ := Except.bind_eq_ok_iff.1 h
  obtain rfl : emitted = g.emission m := (validated_eq_ok hvalidated).2
  cases h
  refine ⟨rfl, ?_⟩
  -- what is listed already is left out, and the emission lists nothing twice
  have hmore : (g.emission m).filter (· ∉ c.objects) = (g.emission m).removeAll listed := by
    refine List.filter_congr fun x _ => ?_
    simp [hc]
  have hnodup : ((g.emission m).removeAll listed).Nodup := Graph.nodup_emission.filter _
  show c.objects ++ (g.emission m).filter (· ∉ c.objects) = _
  rw [hmore, hc, List.eraseDups_append, eraseDups_of_nodup hnodup]

/-- **A closure lists the emissions** of its stages, and over all stages whatever is emitted where
it is emitted first. -/
theorem order_of_collect (h : collect g stages = .ok c) :
    c.stages = stages.map g.emission ∧
      c.objects = (stages.toList.flatMap g.emission).eraseDups := by
  obtain ⟨vertex, fragment⟩ := stages
  rw [collect_eq] at h
  obtain ⟨_, -, h⟩ := Except.bind_eq_ok_iff.1 h
  obtain ⟨c₁, hvertex, hfragment⟩ := Except.bind_eq_ok_iff.1 h
  have hfirst : c₁.stages = ⟨vertex.map g.emission, none⟩ ∧
      c₁.objects = (vertex.toList.flatMap g.emission).eraseDups := by
    cases vertex with
    | none =>
      cases hvertex
      exact ⟨rfl, rfl⟩
    | some v =>
      have hempty : empty.objects = ([] : List ObjectId).eraseDups := rfl
      obtain ⟨hstages, hobjects⟩ := order_of_addStage hvertex hempty
      exact ⟨hstages, by simpa using hobjects⟩
  obtain ⟨hstages₁, hobjects₁⟩ := hfirst
  cases fragment with
  | none =>
    cases hfragment
    exact ⟨hstages₁, by simpa [Stages.toList] using hobjects₁⟩
  | some f =>
    obtain ⟨hstages, hobjects⟩ := order_of_addStage hfragment hobjects₁
    refine ⟨?_, ?_⟩
    · rw [hstages, hstages₁]
      rfl
    · rw [hobjects, Stages.toList, List.flatMap_append]
      simp

/-- **Each object comes after everything it leads to.** -/
theorem Collected.idxOf_emission_lt (hc : c.Collected g stages) (hm : m ∈ stages.toList)
    (hx : x ∈ g.emission m) (hxy : Relation.TransGen (Traversal.Edge g.dependencies) x y)
    (hy : g.Emits y) : (g.emission m).idxOf y < (g.emission m).idxOf x := by
  obtain ⟨rank, hrank⟩ := hc.rank
  have hroots : ∀ r ∈ m.roots, r ∈ stages.toList.flatMap StageMain.roots := fun r hr =>
    List.mem_flatMap.2 ⟨m, hm, hr⟩
  -- emissions leave out what is not emitted, which changes no order
  refine Traversal.idxOf_filter_lt ?_ (Graph.emits_iff.2 hy)
  have hascends : ∀ z, Traversal.Reachable g.dependencies m.roots z → ∀ w ∈ g.dependencies z,
      rank z < rank w := fun z hz => hrank z (hz.mono hroots)
  exact Traversal.idxOf_postorder_lt (fun _ => Graph.mem_horizon) hascends
    (Graph.mem_emission.1 hx).1 hxy

end Closure

end ShaderLink
