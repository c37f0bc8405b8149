import ShaderLink.Closure
import ShaderLink.Proofs.Graph.Nodes
import ShaderLink.Proofs.Outcome
import ShaderLink.Proofs.Traversal.Order

/-!
# What collecting finds

Some stages **need** what their roots depend on (`Closure.Needs`). When `Closure.collect` succeeds,
everything they need is there and valid, dependencies go up in some ranking, and the closure lists
what is emitted of it, for each stage and for all of them, together with the names that attachments
require and the names that the code of the stages takes (`Closure.Collected`,
`collected_of_collect`).
-/

namespace ShaderLink

namespace Graph

/-- Whether an object is there and emitted with a definition. -/
def Emits (g : Graph) (x : ObjectId) : Prop := ∃ o, g.find? x = some o ∧ o.emitted = true

/-- The same as a test. -/
def emits (g : Graph) (x : ObjectId) : Bool := (g.find? x).any (·.emitted)

variable {g : Graph} {x y : ObjectId} {o : Object} {roots : List ObjectId}

theorem emits_iff : g.emits x = true ↔ g.Emits x := by
  simp [emits, Emits, Option.any_eq_true]

theorem dependencies_of_find? (h : g.find? x = some o) : g.dependencies x = o.dependencies := by
  simp [dependencies, h]

theorem mem_ids_of_mem_dependencies (h : y ∈ g.dependencies x) : x ∈ g.ids := by
  rw [mem_ids_iff]
  cases hx : g.find? x with
  | none => simp [dependencies, hx] at h
  | some o => exact ⟨o, rfl⟩

theorem mem_horizon (h : Traversal.Reachable g.dependencies roots x) : x ∈ g.horizon roots := by
  obtain ⟨r, hr, hrx⟩ := h
  cases hrx with
  | refl => simp [horizon, hr]
  | tail _ hx =>
    refine List.mem_append_right _ (List.mem_flatMap.2 ⟨_, mem_ids_of_mem_dependencies hx, hx⟩)

end Graph

theorem Stages.get?_set_of_ne {α : Type} {s : Stages α} {a : α} {stage other : Stage}
    (h : other ≠ stage) : (s.set a stage).get? other = s.get? other := by
  cases stage <;> cases other <;> first | rfl | exact absurd rfl h

theorem Stages.mem_toList_of_get? {α : Type} {s : Stages α} {a : α} {stage : Stage}
    (h : s.get? stage = some a) : a ∈ s.toList := by
  cases stage <;> simp only [Stages.get?] at h <;> simp [Stages.toList, h]

namespace Closure

variable {g : Graph} {x : ObjectId} {roots : List ObjectId}

/-- What stages need: their roots and whatever these depend on. -/
def Needs (g : Graph) (stages : Stages StageMain) (x : ObjectId) : Prop :=
  Traversal.Reachable g.dependencies (stages.toList.flatMap StageMain.roots) x

/-! ### Presence and cycles -/

theorem mem_discovery : x ∈ discovery g roots ↔ Traversal.Reachable g.dependencies roots x := by
  rw [discovery, Traversal.mem_preorder_iff fun a ha => ?_, Traversal.reachable_reverse_iff]
  exact Graph.mem_horizon (Traversal.reachable_reverse_iff.1 ha)

theorem get_of_forIn {l : List ObjectId} {u : PUnit}
    (h : (forIn l PUnit.unit fun id _ => do
      let _ ← g.get id
      pure (.yield PUnit.unit) : Except LinkError PUnit) = .ok u) :
    ∀ x ∈ l, ∃ o, g.find? x = some o := by
  induction l with
  | nil => nofun
  | cons a l ih =>
    rw [List.forIn_cons] at h
    cases ha : g.get a with
    | error e => simp [ha] at h
    | ok o =>
      rw [ha] at h
      intro x hx
      obtain rfl | hx := List.mem_cons.1 hx
      · exact ⟨o, Graph.get_eq_ok_iff.1 ha⟩
      · exact ih h x hx

/-- What has been checked to be reachable is there, and every dependency ranks higher. -/
theorem checkReachable_eq_ok (h : checkReachable g roots = .ok ()) :
    (∀ x, Traversal.Reachable g.dependencies roots x → ∃ o, g.find? x = some o) ∧
    ∃ rank : ObjectId → Nat, ∀ x, Traversal.Reachable g.dependencies roots x →
      ∀ y ∈ g.dependencies x, rank x < rank y := by
  unfold checkReachable at h
  obtain ⟨_, hget, h⟩ := Except.bind_eq_ok_iff.1 h
  refine ⟨fun x hx => get_of_forIn hget x (mem_discovery.2 hx), ?_⟩
  dsimp only at h
  split at h
  · cases h
  · next hnone =>
    -- the search starts from all dependencies, so none of them is left out of the ranking
    obtain ⟨rank, hrank⟩ := Traversal.exists_rank_of_cycleWitness?_eq_none hnone
    refine ⟨rank, fun x hx y hy => hrank x (mem_discovery.2 hx) y hy ?_⟩
    rw [List.mem_eraseDups, List.mem_flatMap]
    exact ⟨x, mem_discovery.2 hx, List.mem_cons_of_mem _ hy⟩

/-! ### Stages -/

theorem checkHooks_eq_ok {m : StageMain} (h : checkHooks m = .ok ()) :
    ∀ hook ∈ m.template.placeholders, ∃ a, m.at? hook = some a := by
  intro hook hhook
  unfold checkHooks at h
  split at h
  · cases h
  · next hnone =>
    have := List.find?_eq_none.1 hnone hook hhook
    simpa [Option.isNone_iff_eq_none, Option.ne_none_iff_exists'] using this

theorem validated_eq_ok {l emitted : List ObjectId} (h : validated g l = .ok emitted) :
    (∀ x ∈ l, g.validate x = .ok ()) ∧ emitted = l.filter g.emits := by
  induction l generalizing emitted with
  | nil =>
    obtain rfl : [] = emitted := by simpa [validated] using h
    simp
  | cons a l ih =>
    unfold validated at h
    obtain ⟨_, hvalid, h⟩ := Except.bind_eq_ok_iff.1 h
    obtain ⟨o, ho, h⟩ := Except.bind_eq_ok_iff.1 h
    obtain ⟨rest, hrest, h⟩ := Except.bind_eq_ok_iff.1 h
    obtain ⟨hvalids, rfl⟩ := ih hrest
    have hemits : g.emits a = o.emitted := by simp [Graph.emits, Graph.get_eq_ok_iff.1 ho]
    refine ⟨fun x hx => ?_, ?_⟩
    · obtain rfl | hx := List.mem_cons.1 hx
      · exact hvalid
      · exact hvalids x hx
    · cases he : o.emitted <;> simpa [he, hemits, eq_comm] using h

/-- A name that an attachment requires for an object. -/
def Requires (attachments : List Attachment) (x : ObjectId) (name : String) : Prop :=
  ∃ a ∈ attachments, a.object = x ∧ a.requiredName = some name

/-- An object can have a name it is required under: it may be called anything, or is called that. -/
def CanBeCalled (g : Graph) (x : ObjectId) (name : String) : Prop :=
  ∃ o, g.find? x = some o ∧ (o.anonymous = true ∨ o.name?.getD "" = name)

theorem requires_cons {a : Attachment} {rest : List Attachment} {name : String} :
    Requires (a :: rest) x name ↔
      (a.object = x ∧ a.requiredName = some name) ∨ Requires rest x name := by
  simp [Requires]

theorem require_eq_ok {attachments : List Attachment} {required required' : Names}
    (h : require g required attachments = .ok required') :
    (∀ x name, required'[x]? = some name ↔
      required[x]? = some name ∨ Requires attachments x name) ∧
    ∀ x name, Requires attachments x name → CanBeCalled g x name := by
  induction attachments generalizing required with
  | nil =>
    obtain rfl : required = required' := by simpa [require] using h
    simp [Requires]
  | cons a rest ih =>
    unfold require at h
    cases hname : a.requiredName with
    | none =>
      -- an attachment that requires no name is passed over
      rw [hname] at h
      obtain ⟨hmem, hcan⟩ := ih h
      refine ⟨fun x name => ?_, fun x name hreq => hcan x name ?_⟩
      · rw [hmem, requires_cons]
        simp [hname]
      · simpa [requires_cons, hname] using hreq
    | some name =>
      rw [hname] at h
      obtain ⟨o, ho, h⟩ := Except.bind_eq_ok_iff.1 h
      have ho := Graph.get_eq_ok_iff.1 ho
      have hcall : (o.anonymous || decide (o.name?.getD "" = name)) = true := by
        by_contra hno
        simp [hno] at h
      -- a name the object is required under already is the same one
      have hprevious : required[a.object]? = none ∨ required[a.object]? = some name := by
        cases hp : required[a.object]? with
        | none => exact .inl rfl
        | some previous =>
          by_cases heq : previous = name
          · exact .inr (congrArg some heq)
          · simp [hcall, hp, heq] at h
      -- so whether or not it was required before, it is from then on
      have hrest : require g (required.insert a.object name) rest = .ok required' := by
        obtain hp | hp := hprevious <;> simpa [hcall, hp] using h
      obtain ⟨hmem, hcan⟩ := ih hrest
      refine ⟨fun x n => ?_, fun x n hreq => ?_⟩
      · rw [hmem, requires_cons, Std.ExtTreeMap.getElem?_insert]
        by_cases hx : a.object = x
        · subst hx
          obtain hp | hp := hprevious <;> simp [hp, hname]
        · simp [hx]
      · obtain ⟨rfl, hn⟩ | hreq := requires_cons.1 hreq
        · rw [hname] at hn
          obtain rfl := Option.some.inj hn
          exact ⟨o, ho, by simpa using hcall⟩
        · exact hcan x n hreq

/-- What a closure of some stages, gone through so far, holds. -/
structure Holds (g : Graph) (stages : Stages StageMain) (c : Closure) : Prop where
  valid : ∀ x, Needs g stages x → g.validate x = .ok ()
  hooks : ∀ m ∈ stages.toList, ∀ hook ∈ m.template.placeholders, ∃ a, m.at? hook = some a
  objects : ∀ x, x ∈ c.objects ↔ Needs g stages x ∧ g.Emits x
  nodup : c.objects.Nodup
  stage : ∀ stage m, stages.get? stage = some m → ∃ order, c.stages.get? stage = some order ∧
    ∀ x, x ∈ order ↔ Traversal.Reachable g.dependencies m.roots x ∧ g.Emits x
  required : ∀ x name, c.required[x]? = some name ↔
    Requires (stages.toList.flatMap StageMain.attachments) x name
  canBeCalled : ∀ x name, c.required[x]? = some name → CanBeCalled g x name
  reserved : c.reserved = stages.toList.flatMap StageMain.staticNames

theorem reachable_append {more : List ObjectId} :
    Traversal.Reachable g.dependencies (roots ++ more) x ↔
      Traversal.Reachable g.dependencies roots x ∨ Traversal.Reachable g.dependencies more x := by
  simp only [Traversal.Reachable, List.mem_append, or_and_right, exists_or]

theorem holds_empty : Holds g .none empty where
  valid := by simp [Needs, Stages.none, Stages.toList, Traversal.Reachable]
  hooks := by simp [Stages.none, Stages.toList]
  objects := by simp [Needs, Stages.none, Stages.toList, Traversal.Reachable, empty]
  nodup := List.nodup_nil
  stage := fun stage m h => by cases stage <;> cases h
  required := by simp [empty, Stages.none, Stages.toList, Requires]
  canBeCalled := by simp [empty]
  reserved := rfl

theorem Holds.addStage {stages : Stages StageMain} {c c' : Closure} {m : StageMain}
    (h : Holds g stages c) (stage : Stage)
    (hlast : (stages.set m stage).toList = stages.toList ++ [m])
    (hadd : addStage g c stage m = .ok c') : Holds g (stages.set m stage) c' := by
  unfold Closure.addStage at hadd
  obtain ⟨_, hhooks, hadd⟩ := Except.bind_eq_ok_iff.1 hadd
  obtain ⟨emitted, hvalidated, hadd⟩ := Except.bind_eq_ok_iff.1 hadd
  obtain ⟨required, hrequire, hadd⟩ := Except.bind_eq_ok_iff.1 hadd
  cases hadd
  obtain ⟨hvalid, rfl⟩ := validated_eq_ok hvalidated
  obtain ⟨hrequired, hcan⟩ := require_eq_ok hrequire
  -- the stage comes last, so all that is collected is extended at the end
  have hneeds : ∀ x, Needs g (stages.set m stage) x ↔
      Needs g stages x ∨ Traversal.Reachable g.dependencies m.roots x := by
    intro x
    rw [Needs, hlast, List.flatMap_append, reachable_append, List.flatMap_singleton]
    rfl
  have horder : ∀ x, x ∈ Traversal.postorder g.dependencies (g.horizon m.roots) m.roots ↔
      Traversal.Reachable g.dependencies m.roots x := fun x =>
    Traversal.mem_postorder_iff fun _ => Graph.mem_horizon
  refine { valid := fun x hx => ?_, hooks := ?_, objects := fun x => ?_, nodup := ?_,
           stage := fun st m' hm' => ?_, required := fun x name => ?_,
           canBeCalled := fun x name hx => ?_, reserved := ?_ }
  · obtain hx | hx := (hneeds x).1 hx
    · exact h.valid x hx
    · exact hvalid x ((horder x).2 hx)
  · intro m' hm'
    rw [hlast, List.mem_append, List.mem_singleton] at hm'
    obtain hm' | rfl := hm'
    · exact h.hooks m' hm'
    · exact checkHooks_eq_ok hhooks
  · rw [List.mem_append, List.mem_filter, List.mem_filter, Graph.emits_iff, horder, hneeds,
      decide_eq_true_eq, h.objects]
    tauto
  · -- what is added was not listed before
    refine List.nodup_append.2 ⟨h.nodup, (Traversal.nodup_postorder.filter _).filter _, ?_⟩
    rintro x hx _ hy rfl
    exact absurd hx (by simpa using (List.mem_filter.1 hy).2)
  · by_cases hst : st = stage
    · subst hst
      rw [Stages.get?_set_self] at hm'
      obtain rfl := Option.some.inj hm'
      refine ⟨_, Stages.get?_set_self _ _ _, fun x => ?_⟩
      rw [List.mem_filter, Graph.emits_iff, horder]
    · rw [Stages.get?_set_of_ne hst] at hm' ⊢
      exact h.stage st m' hm'
  · rw [hrequired, h.required, hlast, List.flatMap_append, List.flatMap_singleton]
    unfold Requires
    simp only [List.mem_append, or_and_right, exists_or]
  · obtain hx | hx := (hrequired x name).1 hx
    · exact h.canBeCalled x name hx
    · exact hcan x name hx
  · rw [h.reserved, hlast, List.flatMap_append, List.flatMap_singleton]

/-- **What a closure holds.** -/
structure Collected (g : Graph) (stages : Stages StageMain) (c : Closure) : Prop
    extends Holds g stages c where
  present : ∀ x, Needs g stages x → ∃ o, g.find? x = some o
  rank : ∃ rank : ObjectId → Nat, ∀ x, Needs g stages x →
    ∀ y ∈ g.dependencies x, rank x < rank y

/-- Adds a stage that is there. -/
def addGiven (g : Graph) (c : Closure) (stage : Stage) : Option StageMain → Except LinkError Closure
  | some m => addStage g c stage m
  | none => pure c

theorem collect_eq (g : Graph) (stages : Stages StageMain) : collect g stages = (do
    checkReachable g (stages.toList.flatMap StageMain.roots)
    let c ← addGiven g empty .vertex stages.vertex
    addGiven g c .fragment stages.fragment) := by
  obtain ⟨vertex, fragment⟩ := stages
  unfold collect
  cases vertex with
  | none => cases fragment <;> rfl
  | some m => cases fragment <;> rfl

/-- **Collecting finds what the stages need**, and answers only if all of it is there and valid. -/
theorem collected_of_collect {stages : Stages StageMain} {c : Closure}
    (h : collect g stages = .ok c) : Collected g stages c := by
  rw [collect_eq] at h
  obtain ⟨_, hreachable, h⟩ := Except.bind_eq_ok_iff.1 h
  obtain ⟨c₁, hvertex, hfragment⟩ := Except.bind_eq_ok_iff.1 h
  obtain ⟨hpresent, hrank⟩ := checkReachable_eq_ok hreachable
  suffices hholds : Holds g stages c from { hholds with present := hpresent, rank := hrank }
  obtain ⟨vertex, fragment⟩ := stages
  -- a stage without code adds nothing
  have hholds : Holds g ⟨vertex, none⟩ c₁ := by
    cases vertex with
    | none =>
      cases hvertex
      exact holds_empty
    | some m => exact holds_empty.addStage .vertex rfl hvertex
  cases fragment with
  | none =>
    cases hfragment
    exact hholds
  | some m => exact hholds.addStage .fragment (by cases vertex <;> rfl) hfragment

end Closure

end ShaderLink
