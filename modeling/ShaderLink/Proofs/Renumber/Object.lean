import ShaderLink.Proofs.Object.WellFormed
import ShaderLink.Proofs.Outcome
import ShaderLink.Proofs.Traversal.Map
import ShaderLink.Stage.Main

/-!
# Other identifiers

Identifiers are handed out one after the other, over all graphs, so the same code makes the same
objects under other identifiers when something else was made before. A **renumbering** gives every
identifier another one, in objects, main codes and errors alike (`Object.renumber`,
`StageMain.renumber`, `LinkError.renumber`), and no two the same.

What an object says of itself stays the same (`Object.signature?_renumber` and others), and where it
names other objects it names them by their other identifiers (`Object.dependencies_renumber`). Two
operations **correspond** if they answer accordingly or fail accordingly (`Corresponds`).
-/

namespace ShaderLink

variable (f : ObjectId → ObjectId)

/-! ### Renumbering -/

def Variable.renumber (v : Variable) : Variable := { v with link := v.link.map f }

def Snippet.renumber (s : Snippet) : Snippet :=
  { s with bindings := s.bindings.map fun _ x => f x, requires := s.requires.map f }

def Chain.renumber (c : Chain) : Chain := { c with members := c.members.map f }

def Call.renumber (c : Call) : Call := ⟨f c.callee, c.arguments.map f⟩

/-- An object with other identifiers in the place of those it names. -/
def Object.renumber : Object → Object
  | var v => var (v.renumber f)
  | function s => function (s.renumber f)
  | chain c => chain (c.renumber f)
  | text code => text code
  | call c => call (c.renumber f)

def Attachment.renumber (a : Attachment) : Attachment := { a with object := f a.object }

def Output.renumber : Output → Output
  | builtin target => builtin target
  | varying id => varying (f id)

/-- A main code with other identifiers in the place of those it names. -/
def StageMain.renumber (m : StageMain) : StageMain :=
  { m with
    attachments := m.attachments.map (Attachment.renumber f)
    outputs := m.outputs.map fun p => (p.1.renumber f, f p.2) }

/-- An error about other identifiers. -/
def LinkError.renumber : LinkError → LinkError
  | alreadyBound function placeholder current => alreadyBound function placeholder (f current)
  | nameCollision name first second => nameCollision name (f first) (f second)
  | unknownObject id => unknownObject (f id)
  | unnamed id => unnamed (f id)
  | notAFunction id => notAFunction (f id)
  | notAVariable id => notAVariable (f id)
  | notAChain id => notAChain (f id)
  | memberOutOfRange chain index => memberOutOfRange (f chain) index
  | cyclicDependency id => cyclicDependency (f id)
  | e => e

/-- **Corresponding outcomes**: related answers, or the same error about other identifiers. -/
abbrev Corresponds {α β : Type} (r : α → β → Prop) :
    Except LinkError α → Except LinkError β → Prop :=
  Related (fun e e' => e' = e.renumber f) r

/-! ### What stays the same -/

namespace Snippet

variable {f} {s : Snippet}

theorem getElem?_bindings_renumber (placeholder : String) :
    (s.renumber f).bindings[placeholder]? = s.bindings[placeholder]?.map f :=
  Std.ExtTreeMap.getElem?_map

theorem boundObjects_renumber : (s.renumber f).boundObjects = s.boundObjects.map f := by
  unfold boundObjects
  rw [List.map_filterMap]
  exact congrArg (List.filterMap · s.placeholders) (funext getElem?_bindings_renumber)

theorem dependencies_renumber : (s.renumber f).dependencies = s.dependencies.map f := by
  rw [dependencies, boundObjects_renumber, dependencies, List.map_append]
  rfl

theorem checkBound_renumber : (s.renumber f).checkBound = s.checkBound := by
  have hcontains : ∀ placeholder, (s.renumber f).bindings.contains placeholder =
      s.bindings.contains placeholder := fun _ => Std.ExtTreeMap.contains_map
  unfold checkBound
  simp only [hcontains]
  rfl

theorem WellFormed.renumber (h : s.WellFormed) : (s.renumber f).WellFormed where
  placeholders_eq := h.placeholders_eq
  bound := fun p hp => h.bound p (Std.ExtTreeMap.contains_map (t := s.bindings) ▸ hp)

end Snippet

namespace Object

variable {f} (o : Object)

@[simp] theorem name?_renumber : (o.renumber f).name? = o.name? := by cases o <;> rfl

@[simp] theorem anonymous_renumber : (o.renumber f).anonymous = o.anonymous := by cases o <;> rfl

@[simp] theorem signature?_renumber : (o.renumber f).signature? = o.signature? := by cases o <;> rfl

@[simp] theorem staticNames_renumber : (o.renumber f).staticNames = o.staticNames := by
  cases o <;> rfl

@[simp] theorem emitted_renumber : (o.renumber f).emitted = o.emitted := by cases o <;> rfl

@[simp] theorem dependencies_renumber : (o.renumber f).dependencies = o.dependencies.map f := by
  cases o with
  | function s => exact Snippet.dependencies_renumber
  | _ => rfl

variable {o}

theorem WellFormed.renumber (h : o.WellFormed) : (o.renumber f).WellFormed := by
  cases o with
  | function s => exact Snippet.WellFormed.renumber h
  | _ => exact h

end Object

namespace StageMain

variable {f} (m : StageMain)

theorem roots_renumber : (m.renumber f).roots = m.roots.map f := by
  have houtput : ∀ p : Output × ObjectId,
      outputObjects (p.1.renumber f, f p.2) = (outputObjects p).map f := by
    rintro ⟨_ | _, _⟩ <;> rfl
  simp [roots, renumber, List.map_flatMap, List.flatMap_map, Function.comp_def, houtput,
    Attachment.renumber]

theorem at?_renumber (hook : String) :
    (m.renumber f).at? hook = (m.at? hook).map (Attachment.renumber f) :=
  find?_map_of fun _ _ => rfl

end StageMain

theorem Stages.toList_map {α β : Type} (k : α → β) (s : Stages α) :
    (s.map k).toList = s.toList.map k := by
  obtain ⟨_ | _, _ | _⟩ := s <;> rfl

theorem Stages.roots_renumber {f : ObjectId → ObjectId} (stages : Stages StageMain) :
    (stages.map (StageMain.renumber f)).toList.flatMap StageMain.roots =
      (stages.toList.flatMap StageMain.roots).map f := by
  rw [toList_map, List.flatMap_map, List.map_flatMap]
  exact congrArg (List.flatMap · stages.toList) (funext fun m => m.roots_renumber)

/-! ### The same identifiers -/

theorem Snippet.renumber_id (s : Snippet) : s.renumber id = s := by
  have hbindings : (s.bindings.map fun _ x => id x) = s.bindings :=
    Std.ExtTreeMap.ext_getElem? fun p => by simp
  rw [renumber, hbindings, List.map_id]

theorem Object.renumber_id (o : Object) : o.renumber id = o := by
  cases o with
  | var v => simp [renumber, Variable.renumber]
  | function s => exact congrArg function s.renumber_id
  | chain c => simp [renumber, Chain.renumber]
  | text code => rfl
  | call c => simp [renumber, Call.renumber]

theorem StageMain.renumber_id (m : StageMain) : m.renumber id = m := by
  have houtputs : (m.outputs.map fun p => (p.1.renumber id, id p.2)) = m.outputs := by
    rw [List.map_congr_left (g := id) fun p _ => ?_, List.map_id]
    obtain ⟨_ | _, _⟩ := p <;> rfl
  rw [renumber, houtputs, show Attachment.renumber id = id from rfl, List.map_id]

theorem LinkError.renumber_id (e : LinkError) : e.renumber id = e := by
  cases e <;> rfl

theorem Stages.renumber_id (stages : Stages StageMain) :
    stages.map (StageMain.renumber id) = stages := by
  obtain ⟨_ | _, _ | _⟩ := stages <;> simp [map, StageMain.renumber_id]

end ShaderLink
