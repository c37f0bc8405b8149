import ShaderLink.Proofs.Linker.Transparency
import ShaderLink.Proofs.Renumber.Definition
import ShaderLink.Proofs.Renumber.Naming

/-!
# Linking under other identifiers

A linker that remembers nothing collects what the stages need, names it, and writes every definition
(`Linker.outcome_link_new`). In a mirror each of these does the same under other identifiers, so
linking does (`Graph.Mirrors.outcome_link`).
-/

namespace ShaderLink

variable {f : ObjectId → ObjectId} {p : ObjectId → Prop} {g g' : Graph} {names names' : Names}
  {stages : Stages StageMain} {c c' : Closure}

/-- The same sources, of objects with other identifiers. -/
def Linked.renumber (f : ObjectId → ObjectId) (linked : Linked) : Linked :=
  { linked with objects := linked.objects.map f }

theorem Linked.renumber_id (linked : Linked) : linked.renumber id = linked := by
  rw [renumber, List.map_id]

/-- **Linking from scratch** writes all that it emits. -/
theorem Linker.outcome_link_new (hwf : g.AllWellFormed) (stages : Stages StageMain)
    (settings : Settings) : outcome (link g stages) (new settings) = (do
      let c ← Closure.collect g stages
      let a ← Assignment.ofClosure g settings.naming settings.reserveKeywords ∅ c
      plainStages g a.names settings.version stages c) := by
  unfold outcome
  rw [run_link, show (new settings).cleared = new settings from rfl]
  cases hc : Closure.collect g stages with
  | error e => simp [plan, hc]
  | ok c =>
    cases ha : Assignment.ofClosure g settings.naming settings.reserveKeywords ∅ c with
    | error e => simp [plan, hc, ha, new]
    | ok a =>
      have hplan := plan_eq_ok_iff.2 ⟨a, hc, (show Assignment.ofClosure g
        (new settings).settings.naming (new settings).settings.reserveKeywords (new settings).names
        c = .ok a from ha), rfl⟩
      obtain ⟨hcollected, hnamed, -⟩ := plan_eq_ok hplan
      rw [hplan, Except.ok_bind, ha]
      -- nothing was remembered, so nothing is after some of it is forgotten
      have hfaithful : Faithful (fun _ => True) g
          (a.renamed.foldl (fun l x => l.invalidate g x) { new settings with names := a.names }) := by
        intro x d hd
        have hnew := (definitions_foldl_invalidate hd).1
        simp [new] at hnew
      rw [names_foldl_invalidate] at hnamed
      have hyields : Yields (FaithfulWith (fun _ => True) g a.names settings) _ _ :=
        yields_writeStages hcollected hnamed hwf fun _ _ => trivial
      exact (hyields _ ⟨hfaithful, names_foldl_invalidate _, settings_foldl_invalidate _⟩).1

namespace Graph.Mirrors

open Closure

/-- What stages need is of the mirror, and is needed there. -/
theorem needs (h : Mirrors f p g g') (hroots : ∀ r ∈ stages.toList.flatMap StageMain.roots, p r)
    {x : ObjectId} (hx : Needs g stages x) :
    p x ∧ Needs g' (stages.map (StageMain.renumber f)) (f x) := by
  unfold Needs
  rw [stages.roots_renumber]
  exact h.renames.reachable hroots hx

/-- **Expressions are the same** where all that they need was collected and named in both graphs. -/
theorem expresses (h : Mirrors f p g g') (hroots : ∀ r ∈ stages.toList.flatMap StageMain.roots, p r)
    (hc : c.Collected g stages) (hc' : c'.Collected g' (stages.map (StageMain.renumber f)))
    (hn : c.AllNamed names) (hn' : c'.AllNamed names')
    (hnames : ∀ x : ObjectId, names'[f x]? = names[x]?) {x : ObjectId} (hx : Needs g stages x) :
    Expresses f g g' names names' x := by
  obtain ⟨hpx, hx'⟩ := h.needs hroots hx
  exact (h.agree_expressionWithin hnames hpx).related (hc.expression_eq_ok hn hx)
    (hc'.expression_eq_ok hn' hx')

theorem plainStage (h : Mirrors f p g g') (hwf : g.AllWellFormed)
    (hnames : ∀ x : ObjectId, names'[f x]? = names[x]?) (version : Option String)
    {order : List ObjectId} {m : StageMain} (horder : ∀ x ∈ order, p x)
    (hdefinitions : ∀ x ∈ order, ∀ y ∈ g.dependencies x, Expresses f g g' names names' y)
    (hmain : ∀ r ∈ m.roots, Expresses f g g' names names' r) :
    Corresponds f Eq (Linker.plainStage g names version order m)
      (Linker.plainStage g' names' version (order.map f) (m.renumber f)) := by
  refine Related.bind (r := Eq) (related_mapM fun x hx => ?_) ?_
  · have hdefinition := h.definition (hdefinitions x hx) hnames hwf (horder x hx)
    exact hdefinition.map fun code _ hcode => congrArg (Option.getD · "") hcode
  · rintro definitions _ rfl -
    refine (mainText hnames hmain).bind ?_
    rintro main _ rfl -
    exact .ok rfl

theorem plainStages (h : Mirrors f p g g') (hwf : g.AllWellFormed)
    (hroots : ∀ r ∈ stages.toList.flatMap StageMain.roots, p r) (hc : c.Collected g stages)
    (hc' : c'.Collected g' (stages.map (StageMain.renumber f))) (hcc' : c.Renumbered f c')
    (hn : c.AllNamed names) (hn' : c'.AllNamed names')
    (hnames : ∀ x : ObjectId, names'[f x]? = names[x]?) (version : Option String) :
    Corresponds f (fun linked linked' => linked' = linked.renumber f)
      (Linker.plainStages g names version stages c)
      (Linker.plainStages g' names' version (stages.map (StageMain.renumber f)) c') := by
  have hexpresses : ∀ {x}, Needs g stages x → Expresses f g g' names names' x :=
    h.expresses hroots hc hc' hn hn' hnames
  have hstage : ∀ stage m, stages.get? stage = some m → Corresponds f Eq
      (Linker.plainStage g names version ((c.stages.get? stage).getD []) m)
      (Linker.plainStage g' names' version (((c.stages.get? stage).getD []).map f)
        (m.renumber f)) := by
    intro stage m hm
    obtain ⟨order, horder, hneeds⟩ := hc.exists_order hm
    rw [horder, Option.getD_some]
    have hroots : ∀ r ∈ m.roots, Needs g stages r := fun r hr =>
      needs_of_mem_roots (Stages.mem_toList_of_get? hm) hr
    exact h.plainStage hwf hnames version (fun x hx => (h.needs ‹_› (hneeds x hx).1).1)
      (fun x hx y hy => hexpresses ((hneeds x hx).1.step hy)) fun r hr => hexpresses (hroots r hr)
  -- the orders of the stages are those of the graph, renumbered
  have horders : ∀ order : Option (List ObjectId),
      (order.map (List.map f)).getD [] = (order.getD []).map f := by
    rintro (_ | _) <;> rfl
  unfold Linker.plainStages
  rw [hcc'.stages, hcc'.objects]
  simp only [Stages.map, horders]
  refine (related_optionMapM fun m hm => hstage .vertex m hm).bind ?_
  rintro vertex _ rfl -
  refine (related_optionMapM fun m hm => hstage .fragment m hm).bind ?_
  rintro fragment _ rfl -
  exact .ok rfl

/-- **Linking a mirror from scratch** answers the same sources and the same objects under their other
identifiers, or fails alike. -/
theorem outcome_link (h : Mirrors f p g g') (hwf : g.AllWellFormed) (hwf' : g'.AllWellFormed)
    (hroots : ∀ r ∈ stages.toList.flatMap StageMain.roots, p r) (settings : Settings)
    (hstyle : settings.naming.Ignores f) :
    Corresponds f (fun linked linked' => linked' = linked.renumber f)
      (outcome (Linker.link g stages) (Linker.new settings))
      (outcome (Linker.link g' (stages.map (StageMain.renumber f))) (Linker.new settings)) := by
  rw [Linker.outcome_link_new hwf, Linker.outcome_link_new hwf']
  refine related_bind (h.collect hroots) fun c c' hc hc' hcc' => ?_
  have hc := collected_of_collect hc
  have hc' := collected_of_collect hc'
  have hobjects : ∀ x ∈ c.objects, p x := fun x hx =>
    (h.needs hroots ((hc.objects x).1 hx).1).1
  refine related_bind (h.ofClosure hstyle settings.reserveKeywords hcc' hobjects)
    fun a a' ha ha' haa' => ?_
  -- whatever the stages need was collected and named, so that it can be written, in both graphs
  have hn := Linker.allNamed_of_ofClosure hc ha
  have hn' := Linker.allNamed_of_ofClosure hc' ha'
  exact h.plainStages hwf hroots hc hc' hcc' hn hn' haa'.names settings.version

end Graph.Mirrors

end ShaderLink
