import ShaderLink.Proofs.Renumber.Graph

/-!
# Collecting under other identifiers

What stages need is collected from a mirror as it is from the graph itself, under other identifiers
and in the same order, and where that fails it fails alike (`Graph.Mirrors.collect`). The orders are
those of traversals, which do not look at identifiers; and what is recorded by identifier is only
looked up.
-/

namespace ShaderLink

/-- A closure with the same content under other identifiers. -/
structure Closure.Renumbered (f : ObjectId → ObjectId) (c c' : Closure) : Prop where
  stages : c'.stages = c.stages.map (List.map f)
  objects : c'.objects = c.objects.map f
  required : ∀ x : ObjectId, c'.required[f x]? = c.required[x]?
  reserved : c'.reserved = c.reserved

namespace Graph.Mirrors

open Closure Traversal

variable {f : ObjectId → ObjectId} {p : ObjectId → Prop} {g g' : Graph} {roots : List ObjectId}
  {c c' : Closure} {m : StageMain}

/-! ### Orders -/

/-- What roots lead to is on the horizon of both graphs. -/
theorem mem_horizon_iff (h : Mirrors f p g g') (hroots : ∀ r ∈ roots, p r) {x : ObjectId}
    (hx : Reachable g.dependencies roots x) :
    f x ∈ g'.horizon (roots.map f) ↔ x ∈ g.horizon roots :=
  iff_of_true (mem_horizon (h.renames.reachable hroots hx).2) (mem_horizon hx)

theorem postorder_eq (h : Mirrors f p g g') (hroots : ∀ r ∈ roots, p r) :
    postorder g'.dependencies (g'.horizon (roots.map f)) (roots.map f) =
      (postorder g.dependencies (g.horizon roots) roots).map f :=
  postorder_map (h.renames.ofReachable hroots) (fun _ hr => .root hr)
    fun _ hx => h.mem_horizon_iff hroots hx

theorem discovery_eq (h : Mirrors f p g g') (hroots : ∀ r ∈ roots, p r) :
    discovery g' (roots.map f) = (discovery g roots).map f := by
  have hroots' : ∀ r ∈ roots.reverse, p r := fun r hr => hroots r (List.mem_reverse.1 hr)
  unfold discovery
  rw [← List.map_reverse]
  refine preorder_map (h.renames.reverse.ofReachable hroots') (fun _ hr => .root hr) fun x hx => ?_
  exact h.mem_horizon_iff hroots (reachable_reverse_iff.1 hx)

/-- What is found is of the mirror. -/
theorem of_mem_discovery (h : Mirrors f p g g') (hroots : ∀ r ∈ roots, p r) :
    ∀ x ∈ discovery g roots, p x := fun _ hx =>
  (h.renames.reachable hroots (mem_discovery.1 hx)).1

/-! ### Presence and cycles -/

theorem checkReachable (h : Mirrors f p g g') (hroots : ∀ r ∈ roots, p r) :
    Corresponds f Eq (Closure.checkReachable g roots) (Closure.checkReachable g' (roots.map f)) := by
  have hfound := h.of_mem_discovery hroots
  have hpresent : Corresponds f Eq
      (forIn (discovery g roots) PUnit.unit fun id _ => do
        let _ ← g.get id
        pure (.yield PUnit.unit))
      (forIn ((discovery g roots).map f) PUnit.unit fun id _ => do
        let _ ← g'.get id
        pure (.yield PUnit.unit)) := by
    refine related_forIn (fun x hx _ => ?_) _
    exact (h.get (hfound x hx)).bind fun _ _ _ _ => .ok rfl
  -- the search starts from what was found and what that mentions
  have hmentioned : ((discovery g roots).map f).flatMap (fun x => x :: g'.dependencies x) =
      ((discovery g roots).flatMap fun x => x :: g.dependencies x).map f := by
    rw [List.flatMap_map, List.map_flatMap]
    refine List.flatMap_congr fun x hx => ?_
    rw [h.dependencies_eq (hfound x hx), List.map_cons]
  have hstarts : ∀ x ∈ ((discovery g roots).flatMap fun x => x :: g.dependencies x).eraseDups,
      p x := by
    intro x hx
    obtain ⟨y, hy, hx⟩ := List.mem_flatMap.1 (List.mem_eraseDups.1 hx)
    obtain rfl | hx := List.mem_cons.1 hx
    · exact hfound x hy
    · exact h.dependency y (hfound y hy) x hx
  unfold Closure.checkReachable
  rw [h.discovery_eq hroots]
  refine hpresent.bind fun _ _ _ _ => ?_
  dsimp only
  rw [hmentioned, eraseDups_map h.injective, cycleWitness?_map h.renames hfound hstarts]
  cases cycleWitness? g.dependencies (discovery g roots)
      ((discovery g roots).flatMap fun x => x :: g.dependencies x).eraseDups with
  | none => exact .ok rfl
  | some x => exact .error rfl

/-! ### Stages -/

theorem checkHooks (m : StageMain) :
    Corresponds f Eq (Closure.checkHooks m) (Closure.checkHooks (m.renumber f)) := by
  have hfind : ((m.renumber f).template.placeholders.find? fun hook =>
      ((m.renumber f).at? hook).isNone) =
        m.template.placeholders.find? fun hook => (m.at? hook).isNone := by
    simp only [StageMain.at?_renumber, Option.isNone_map]
    rfl
  unfold Closure.checkHooks
  rw [hfind]
  cases m.template.placeholders.find? fun hook => (m.at? hook).isNone with
  | none => exact .ok rfl
  | some hook => exact .error rfl

theorem validated (h : Mirrors f p g g') {l : List ObjectId} (hl : ∀ x ∈ l, p x) :
    Corresponds f (fun l l' => l' = l.map f) (Closure.validated g l)
      (Closure.validated g' (l.map f)) := by
  induction l with
  | nil => exact .ok rfl
  | cons x l ih =>
    have hx := hl x List.mem_cons_self
    rw [List.map_cons, Closure.validated, Closure.validated]
    refine (h.validate hx).bind fun _ _ _ _ => (h.get hx).bind ?_
    rintro o _ rfl -
    refine (ih fun y hy => hl y (List.mem_cons_of_mem x hy)).bind ?_
    rintro emitted _ rfl -
    rw [Object.emitted_renumber]
    split <;> exact .ok rfl

theorem require (h : Mirrors f p g g') {attachments : List Attachment} {required required' : Names}
    (hattachments : ∀ a ∈ attachments, p a.object)
    (hrequired : ∀ x : ObjectId, required'[f x]? = required[x]?) :
    Corresponds f (fun r r' => ∀ x : ObjectId, r'[f x]? = r[x]?)
      (Closure.require g required attachments)
      (Closure.require g' required' (attachments.map (Attachment.renumber f))) := by
  induction attachments generalizing required required' with
  | nil => exact .ok hrequired
  | cons a rest ih =>
    have hrest : ∀ b ∈ rest, p b.object := fun b hb => hattachments b (List.mem_cons_of_mem a hb)
    rw [List.map_cons, Closure.require, Closure.require]
    rw [show (a.renumber f).requiredName = a.requiredName from rfl,
      show (a.renumber f).object = f a.object from rfl]
    cases a.requiredName with
    | none => exact ih hrest hrequired
    | some name =>
      refine (h.get (hattachments a List.mem_cons_self)).bind ?_
      rintro o _ rfl -
      -- whatever is required under the name is required under it from then on
      have hinsert : ∀ x : ObjectId, (required'.insert (f a.object) name)[f x]? =
          (required.insert a.object name)[x]? := by
        intro x
        rw [Std.ExtTreeMap.getElem?_insert, Std.ExtTreeMap.getElem?_insert, hrequired x]
        simp [h.injective.eq_iff]
      have hnext := ih hrest hinsert
      simp only [Object.name?_renumber, Object.anonymous_renumber, hrequired]
      split
      · split
        · split
          · exact hnext
          · exact .error rfl
        · exact hnext
      · exact .error rfl

theorem addStage (h : Mirrors f p g g') (stage : Stage) (hm : ∀ r ∈ m.roots, p r)
    (hc : c.Renumbered f c') :
    Corresponds f (Renumbered f) (Closure.addStage g c stage m)
      (Closure.addStage g' c' stage (m.renumber f)) := by
  have horder : ∀ x ∈ postorder g.dependencies (g.horizon m.roots) m.roots, p x := fun x hx =>
    (h.renames.reachable hm ((mem_postorder_iff fun _ => mem_horizon).1 hx)).1
  unfold Closure.addStage
  rw [m.roots_renumber, h.postorder_eq hm]
  refine (checkHooks m).bind fun _ _ _ _ => (h.validated horder).bind ?_
  rintro emitted _ rfl -
  have hattachments : ∀ a ∈ m.attachments, p a.object := fun a ha =>
    hm a.object (List.mem_append_left _ (List.mem_map_of_mem ha))
  refine (h.require hattachments hc.required).bind fun required required' hrequired _ => ?_
  refine .ok { stages := ?_, objects := ?_, required := hrequired, reserved := ?_ }
  · rw [hc.stages]
    cases stage <;> rfl
  · -- what was listed before is not listed again
    rw [hc.objects, List.map_append, List.filter_map]
    refine congrArg (_ ++ List.map f ·) (List.filter_congr fun x _ => ?_)
    simp only [Function.comp_apply, List.mem_map_of_injective h.injective]
  · rw [hc.reserved]
    rfl

theorem addGiven (h : Mirrors f p g g') (stage : Stage) {given : Option StageMain}
    (hgiven : ∀ m ∈ given, ∀ r ∈ m.roots, p r) (hc : c.Renumbered f c') :
    Corresponds f (Renumbered f) (Closure.addGiven g c stage given)
      (Closure.addGiven g' c' stage (given.map (StageMain.renumber f))) := by
  cases given with
  | none => exact .ok hc
  | some m => exact h.addStage stage (hgiven m rfl) hc

theorem renumbered_empty : Closure.empty.Renumbered f .empty where
  stages := rfl
  objects := rfl
  required := by simp [Closure.empty]
  reserved := rfl

/-- **Collecting from a mirror** answers the same closure under other identifiers, or fails alike. -/
theorem collect (h : Mirrors f p g g') {stages : Stages StageMain}
    (hroots : ∀ r ∈ stages.toList.flatMap StageMain.roots, p r) :
    Corresponds f (Renumbered f) (Closure.collect g stages)
      (Closure.collect g' (stages.map (StageMain.renumber f))) := by
  have hstage : ∀ m ∈ stages.toList, ∀ r ∈ m.roots, p r := fun m hm r hr =>
    hroots r (List.mem_flatMap.2 ⟨m, hm, hr⟩)
  rw [collect_eq, collect_eq, stages.roots_renumber]
  refine (h.checkReachable hroots).bind fun _ _ _ _ => ?_
  refine (h.addGiven .vertex (fun m hm => hstage m ?_) renumbered_empty).bind fun c c' hc _ =>
    h.addGiven .fragment (fun m hm => hstage m ?_) hc
  · exact List.mem_append_left _ (Option.mem_toList.2 hm)
  · exact List.mem_append_right _ (Option.mem_toList.2 hm)

end Graph.Mirrors

end ShaderLink
