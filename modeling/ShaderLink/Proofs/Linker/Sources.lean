import ShaderLink.Proofs.Closure.Order
import ShaderLink.Proofs.Linker.Again
import ShaderLink.Proofs.Linker.Transparency

/-!
# What sources are made of

The source of a stage is the line of the version, the definitions of some objects and the main
code, with line breaks between them. The objects are exactly those with a definition that the stage
leads to, each once and after everything it leads to itself (`Linker.link_emits_closure`). A stage
leads to what is attached to it, to the varyings that it assigns and the expressions that it assigns
to outputs (`StageMain.Uses`), and from there to whatever these depend on (`Graph.DependsOn`).

What a linking writes can be read off the linker it leaves, whatever was remembered before: every
definition is the remembered one, and the main code is that of its names (`Linker.Reads`). Writing
another stage keeps it so, because linkers only come to remember more (`Linker.Extends`). That is
why an object that is emitted in both stages has one name and one definition.
-/

namespace ShaderLink

/-- What is emitted has a definition. -/
theorem Graph.Emits.exists_definition {g : Graph} {names : Names} {x : ObjectId}
    {written : Option String} (h : g.Emits x) (hx : g.definition? names x = .ok written) :
    ∃ code, written = some code := by
  obtain ⟨o, ho, he⟩ := h
  rw [Graph.definition?, Graph.get_eq_ok_iff.2 ho, Except.ok_bind] at hx
  cases o with
  | text _ => cases he
  | call _ => cases he
  | _ =>
    obtain ⟨code, -, hcode⟩ := Except.map_eq_ok_iff.1 hx
    exact ⟨code, hcode.symm⟩

theorem Stages.exists_get?_of_mem_toList {α : Type} {s : Stages α} {a : α} (h : a ∈ s.toList) :
    ∃ stage, s.get? stage = some a := by
  obtain h | h := List.mem_append.1 h
  · exact ⟨.vertex, Option.mem_toList.1 h⟩
  · exact ⟨.fragment, Option.mem_toList.1 h⟩

/-! ### What leads to what -/

/-- **What a stage uses**: what is attached to it, the varyings that it assigns, and the expressions
that it assigns to varyings and other outputs. -/
inductive StageMain.Uses (m : StageMain) : ObjectId → Prop where
  | attached {a : Attachment} (ha : a ∈ m.attachments) : Uses m a.object
  | varying {id expression : ObjectId} (h : (.varying id, expression) ∈ m.outputs) : Uses m id
  | expression {output : Output} {expression : ObjectId} (h : (output, expression) ∈ m.outputs) :
      Uses m expression

theorem StageMain.mem_roots_iff {m : StageMain} {x : ObjectId} : x ∈ m.roots ↔ m.Uses x := by
  constructor
  · intro hx
    obtain hx | hx := List.mem_append.1 hx
    · obtain ⟨a, ha, rfl⟩ := List.mem_map.1 hx
      exact .attached ha
    · obtain ⟨⟨output, expression⟩, houtput, hx⟩ := List.mem_flatMap.1 hx
      cases output with
      | builtin target =>
        obtain rfl := List.mem_singleton.1 hx
        exact .expression houtput
      | varying id =>
        obtain rfl | hx := List.mem_cons.1 hx
        · exact .varying houtput
        · obtain rfl := List.mem_singleton.1 hx
          exact .expression houtput
  · intro hx
    cases hx with
    | attached ha => exact Closure.mem_roots_of_attachment ha
    | varying h => exact Closure.mem_roots_of_output h List.mem_cons_self
    | @expression output _ h =>
      refine Closure.mem_roots_of_output h ?_
      cases output <;> simp [outputObjects]

namespace Graph

variable {g : Graph} {x y : ObjectId}

/-- **What an object depends on**: a function on what it requires and what is bound to its
placeholders, a chain on its members, and a call on its callee and arguments. -/
inductive DependsOn (g : Graph) : ObjectId → ObjectId → Prop where
  | required {x y : ObjectId} {s : Snippet} (hx : g.find? x = some (.function s))
      (hy : y ∈ s.requires) : DependsOn g x y
  | bound {x y : ObjectId} {s : Snippet} {placeholder : String}
      (hx : g.find? x = some (.function s)) (hp : placeholder ∈ s.placeholders)
      (hy : s.bindings[placeholder]? = some y) : DependsOn g x y
  | member {x y : ObjectId} {c : Chain} (hx : g.find? x = some (.chain c)) (hy : y ∈ c.members) :
      DependsOn g x y
  | callee {x : ObjectId} {c : Call} (hx : g.find? x = some (.call c)) : DependsOn g x c.callee
  | argument {x y : ObjectId} {c : Call} (hx : g.find? x = some (.call c)) (hy : y ∈ c.arguments) :
      DependsOn g x y

theorem mem_dependencies_iff : y ∈ g.dependencies x ↔ g.DependsOn x y := by
  constructor
  · intro hy
    obtain ⟨o, ho⟩ := mem_ids_iff.1 (mem_ids_of_mem_dependencies hy)
    rw [dependencies_of_find? ho] at hy
    cases o with
    | function s =>
      obtain hy | hy := List.mem_append.1 hy
      · exact .required ho hy
      · obtain ⟨placeholder, hp, hy⟩ := List.mem_filterMap.1 hy
        exact .bound ho hp hy
    | chain c => exact .member ho hy
    | call c =>
      obtain rfl | hy := List.mem_cons.1 hy
      · exact .callee ho
      · exact .argument ho hy
    | _ => cases hy
  · intro h
    cases h with
    | required hx hy =>
      rw [dependencies_of_find? hx]
      exact List.mem_append_left _ hy
    | bound hx hp hy =>
      rw [dependencies_of_find? hx]
      exact List.mem_append_right _ (List.mem_filterMap.2 ⟨_, hp, hy⟩)
    | member hx hy => rwa [dependencies_of_find? hx]
    | callee hx =>
      rw [dependencies_of_find? hx]
      exact List.mem_cons_self
    | argument hx hy =>
      rw [dependencies_of_find? hx]
      exact List.mem_cons_of_mem _ hy

theorem edge_dependencies : Traversal.Edge g.dependencies = g.DependsOn := by
  funext x y
  exact propext mem_dependencies_iff

/-- **The objects that have a definition**: variables, functions and chains. -/
inductive HasDefinition (g : Graph) (x : ObjectId) : Prop where
  | var {v : Variable} (hx : g.find? x = some (.var v))
  | function {s : Snippet} (hx : g.find? x = some (.function s))
  | chain {c : Chain} (hx : g.find? x = some (.chain c))

theorem emits_iff_hasDefinition : g.Emits x ↔ g.HasDefinition x := by
  constructor
  · rintro ⟨o, ho, he⟩
    cases o with
    | var v => exact .var ho
    | function s => exact .function ho
    | chain c => exact .chain ho
    | text _ | call _ => cases he
  · rintro (hx | hx | hx) <;> exact ⟨_, hx, rfl⟩

end Graph

namespace Linker

open ShaderLink.Graph
open Relation
open MonadExcept (ofExcept)

variable {g : Graph} {stages : Stages StageMain} {l l' l₁ : Linker} {linked : Linked}
  {m : StageMain} {order : List ObjectId} {x : ObjectId} {code source : String}

/-! ### Reading a source off the linker -/

/-- **A source as it reads in a linker**: the definitions that the linker remembers of some objects,
in order, and the main code with the names that it remembers. -/
def Reads (g : Graph) (l : Linker) (order : List ObjectId) (m : StageMain) (source : String) :
    Prop :=
  ∃ codes main, List.Forall₂ (Remembers g l) order codes ∧ mainText g l.names m = .ok main ∧
    source = assemble l.settings.version codes main

theorem Reads.extends (h : Reads g l order m source) (hextends : Extends g l l') :
    Reads g l' order m source := by
  obtain ⟨codes, main, hcodes, hmain, rfl⟩ := h
  refine ⟨codes, main, hcodes.imp fun x code hx => hextends.remembers x code hx, ?_, ?_⟩
  · rw [hextends.sameNames.1, hmain]
  · rw [hextends.sameNames.2]

theorem remembers_of_run_mapM {codes : List String}
    (h : (order.mapM (define g)).run l = .ok codes l') :
    List.Forall₂ (Remembers g l') order codes ∧ Extends g l l' := by
  induction order generalizing l codes with
  | nil =>
    cases h
    exact ⟨.nil, refl _⟩
  | cons x order ih =>
    rw [List.mapM_cons] at h
    obtain ⟨code, l₁, hdefine, h⟩ := run_bind_eq_ok_iff.1 h
    obtain ⟨codes, l₂, hmapM, h⟩ := run_bind_eq_ok_iff.1 h
    cases h
    obtain ⟨hremembers, hfirst⟩ := remembers_of_run_define hdefine
    obtain ⟨hcodes, hrest⟩ := ih hmapM
    exact ⟨.cons (hrest.remembers x code hremembers) hcodes, hfirst.trans hrest⟩

theorem reads_of_run_writeStage (h : (writeStage g order m).run l = .ok source l') :
    Reads g l' order m source ∧ Extends g l l' := by
  obtain ⟨codes, l₁, hcodes, h⟩ := run_bind_eq_ok_iff.1 h
  obtain ⟨hremembers, hextends⟩ := remembers_of_run_mapM hcodes
  -- the main code only looks at the linker
  change (ofExcept (mainText g l₁.names m) >>= fun main =>
    pure (assemble l₁.settings.version codes main) : EStateM LinkError Linker String).run l₁ = _ at h
  cases hmain : mainText g l₁.names m with
  | error e =>
    rw [hmain] at h
    cases h
  | ok main =>
    rw [hmain] at h
    cases h
    exact ⟨⟨codes, main, hremembers, hmain, rfl⟩, hextends⟩

/-- A stage that is there is written, with its emission. -/
def ReadsGiven (g : Graph) (l : Linker) : Option StageMain → Option String → Prop :=
  Option.Rel fun m => Reads g l (g.emission m) m

theorem ReadsGiven.extends {given : Option StageMain} {written : Option String}
    (h : ReadsGiven g l given written) (hextends : Extends g l l') :
    ReadsGiven g l' given written := by
  cases h with
  | none => exact .none
  | some h => exact .some (h.extends hextends)

theorem readsGiven_of_run_mapM {given : Option StageMain} {written : Option String}
    (h : (given.mapM (writeStage g ((given.map g.emission).getD []))).run l = .ok written l') :
    ReadsGiven g l' given written ∧ Extends g l l' := by
  cases given with
  | none =>
    cases h
    exact ⟨.none, refl _⟩
  | some m =>
    rw [Option.mapM_some, map_eq_pure_bind] at h
    obtain ⟨source, l₁, hwrite, h⟩ := run_bind_eq_ok_iff.1 h
    cases h
    obtain ⟨hreads, hextends⟩ := reads_of_run_writeStage hwrite
    exact ⟨.some hreads, hextends⟩

/-- **Every source reads so in the linker that is left.** -/
theorem reads_of_link (h : (link g stages).run l = .ok linked l') :
    ∃ c l₁, l.cleared.plan g stages = .ok (c, l₁) ∧ Extends g l₁ l' ∧
      linked.objects = c.objects ∧
      linked.objects = (stages.toList.flatMap g.emission).eraseDups ∧
      ∀ stage, ReadsGiven g l' (stages.get? stage) (linked.sources.get? stage) := by
  obtain ⟨c, l₁, hplan, hwrite⟩ := link_eq_ok h
  obtain ⟨a, hcollect, -⟩ := plan_eq_ok_iff.1 hplan
  obtain ⟨hstages, hobjects⟩ := Closure.order_of_collect hcollect
  obtain ⟨vertex, l₂, hvertex, hwrite⟩ := run_bind_eq_ok_iff.1 hwrite
  obtain ⟨fragment, l₃, hfragment, hwrite⟩ := run_bind_eq_ok_iff.1 hwrite
  cases hwrite
  rw [hstages] at hvertex hfragment
  obtain ⟨hreadsv, hextendsv⟩ := readsGiven_of_run_mapM hvertex
  obtain ⟨hreadsf, hextendsf⟩ := readsGiven_of_run_mapM hfragment
  refine ⟨c, l₁, hplan, hextendsv.trans hextendsf, rfl, hobjects, fun stage => ?_⟩
  cases stage with
  | vertex =>
    -- the fragment stage is written later and keeps what was remembered for this one
    exact hreadsv.extends hextendsf
  | fragment => exact hreadsf

theorem exists_reads {stage : Stage}
    (h : ∀ stage, ReadsGiven g l (stages.get? stage) (linked.sources.get? stage))
    (hm : stages.get? stage = some m) :
    ∃ source, linked.sources.get? stage = some source ∧ Reads g l (g.emission m) m source := by
  have hstage := h stage
  rw [hm] at hstage
  generalize linked.sources.get? stage = written at hstage
  cases hstage with
  | some hreads => exact ⟨_, rfl, hreads⟩

/-! ### Emission -/

/-- **A source that emits what a stage leads to, in order**: the line of the version, then the
definitions of exactly the objects that have one and that the stage leads to, each once and after
everything it leads to itself, and then the main code, unless it is empty. -/
structure EmitsClosure (g : Graph) (version : Option String) (names : Names)
    (code : ObjectId → String) (m : StageMain) (order : List ObjectId) (source : String) :
    Prop where
  nodup : order.Nodup
  mem : ∀ x, x ∈ order ↔ g.HasDefinition x ∧ ∃ r, m.Uses r ∧ ReflTransGen g.DependsOn r x
  after : ∀ x ∈ order, ∀ y, TransGen g.DependsOn x y → g.HasDefinition y →
    order.idxOf y < order.idxOf x
  source : ∃ main, mainText g names m = .ok main ∧
    source = "\n".intercalate (version.toList.map ("#version " ++ ·) ++ order.map code ++
      [main].filter (· ≠ ""))

/-- What the parts of a source are put together to. -/
theorem assemble_eq (version : Option String) (definitions : List String) (main : String) :
    assemble version definitions main = "\n".intercalate
      (version.toList.map ("#version " ++ ·) ++ definitions ++ [main].filter (· ≠ "")) := by
  unfold assemble
  cases version <;> by_cases hmain : main = "" <;> simp [hmain]

/-- The definition that a linker remembers of an object. -/
def rememberedCode (l : Linker) (x : ObjectId) : String :=
  ((l.definitions[x]?).map Definition.code).getD ""

theorem Remembers.eq_rememberedCode (h : Remembers g l x code) : code = l.rememberedCode x := by
  obtain ⟨name, revision, -, -, hd⟩ := h
  rw [rememberedCode, hd]
  rfl

theorem map_rememberedCode {codes : List String} (h : List.Forall₂ (Remembers g l) order codes) :
    codes = order.map l.rememberedCode := by
  induction h with
  | nil => rfl
  | cons hx _ ih => rw [List.map_cons, ← ih, ← hx.eq_rememberedCode]

theorem Reads.remembers (h : Reads g l order m source) (hx : x ∈ order) :
    Remembers g l x (l.rememberedCode x) := by
  obtain ⟨codes, main, hcodes, -, -⟩ := h
  induction hcodes with
  | nil => cases hx
  | cons hy _ ih =>
    obtain rfl | hx := List.mem_cons.1 hx
    · exact hy.eq_rememberedCode ▸ hy
    · exact ih hx

/-- Whatever is emitted is remembered. -/
theorem remembers_of_mem_objects
    (hobjects : linked.objects = (stages.toList.flatMap g.emission).eraseDups)
    (hreads : ∀ stage, ReadsGiven g l (stages.get? stage) (linked.sources.get? stage))
    (hx : x ∈ linked.objects) : Remembers g l x (l.rememberedCode x) := by
  rw [hobjects, List.mem_eraseDups, List.mem_flatMap] at hx
  obtain ⟨m, hm, hx⟩ := hx
  obtain ⟨stage, hm⟩ := Stages.exists_get?_of_mem_toList hm
  obtain ⟨source, -, hsource⟩ := exists_reads hreads hm
  exact hsource.remembers hx

theorem Reads.emitsClosure {c : Closure} (h : Reads g l (g.emission m) m source)
    (hc : c.Collected g stages) (hm : m ∈ stages.toList) :
    EmitsClosure g l.settings.version l.names l.rememberedCode m (g.emission m) source where
  nodup := nodup_emission
  mem := fun x => by
    rw [mem_emission, Traversal.Reachable, edge_dependencies, emits_iff_hasDefinition, and_comm]
    simp only [StageMain.mem_roots_iff]
  after := fun _ hx _ hxy hy =>
    hc.idxOf_emission_lt hm hx (edge_dependencies ▸ hxy) (emits_iff_hasDefinition.2 hy)
  source := by
    obtain ⟨codes, main, hcodes, hmain, hsource⟩ := h
    rw [assemble_eq, map_rememberedCode hcodes] at hsource
    exact ⟨main, hmain, hsource⟩

/-- Whether code is the definition that a linking places for an object: what was remembered under
the name and the revision that the object has, or what is written with the names of the linking. -/
def Places (g : Graph) (l : Linker) (names : Names) (x : ObjectId) (code : String) : Prop :=
  ∃ name revision, names[x]? = some name ∧ g.revision x = .ok revision ∧
    (l.definitions[x]? = some { name, revision, code } ∨
      g.definition? names x = .ok (some code))

/-- What is remembered of an emitted object after a linking was remembered before or is written. -/
theorem places_of_plan {c : Closure} (hplan : l.cleared.plan g stages = .ok (c, l₁))
    (hextends : Extends g l₁ l') (he : g.Emits x) (h : Remembers g l' x code) :
    Places g l l'.names x code := by
  obtain ⟨a, -, -, rfl⟩ := plan_eq_ok_iff.1 hplan
  obtain ⟨name, revision, hname, hrevision, hd⟩ := h
  refine ⟨name, revision, hname, hrevision, ?_⟩
  obtain hd | ⟨written, hwritten, hcode⟩ := hextends.written x _ hd
  · -- invalidating only drops definitions
    exact .inl (definitions_foldl_invalidate hd).1
  · rw [← hextends.sameNames.1] at hwritten
    obtain ⟨text, rfl⟩ := he.exists_definition hwritten
    obtain rfl : code = text := hcode
    exact .inr hwritten

/-- In a run, what is remembered after a linking is what would be written. -/
theorem definition_eq_of_run {k : Nat} {σ : Session} {held : ObjectId → Prop} {c : Closure}
    (h : Run k σ held l) (hlink : (link (σ.graphs k) stages).run l = .ok linked l')
    (hc : c.Collected (σ.graphs k) stages) (hn : c.AllNamed l'.names)
    (hx : Closure.Needs (σ.graphs k) stages x) (he : (σ.graphs k).Emits x)
    (hcode : Remembers (σ.graphs k) l' x code) :
    (σ.graphs k).definition? l'.names x = .ok (some code) := by
  have hfaithful : Faithful held (σ.graphs k) l' := by
    have hleft := (h.sound.link stages).2
    rwa [stateAfter_eq_of_ok hlink] at hleft
  have hwf : (σ.graphs k).AllWellFormed := (h.sound.tracks.lawful.store k).wellFormed
  obtain ⟨name, revision, hname, hrevision, hd⟩ := hcode
  obtain ⟨written, hwritten⟩ := hc.definition_eq_ok hn hwf hx
  obtain ⟨text, rfl⟩ := he.exists_definition hwritten
  have hsame : code = text := hfaithful.code_eq hc hx hd hname hrevision hwritten
  rw [hwritten, hsame]

/-- **Emission is the dependency closure, in order**, whatever the graph and whatever the linker
remembers: of each stage, as the text of its source shows. Both stages share one definition and one
name for each object; what is emitted is listed once, where it is emitted first, the vertex stage
first. In a run, the definitions are those that would be written if none were remembered. -/
theorem link_emits_closure (h : (link g stages).run l = .ok linked l') :
    ∃ (order : Stage → List ObjectId) (code : ObjectId → String),
      (∀ stage m, stages.get? stage = some m → ∃ source,
        linked.sources.get? stage = some source ∧
          EmitsClosure g l.settings.version l'.names code m (order stage) source) ∧
      (∀ stage, stages.get? stage = none → order stage = [] ∧ linked.sources.get? stage = none) ∧
      linked.objects = (order .vertex ++ order .fragment).eraseDups ∧
      (∀ x ∈ linked.objects, Places g l l'.names x (code x)) ∧
      ∀ k σ held, σ.graphs k = g → Run k σ held l →
        ∀ x ∈ linked.objects, g.definition? l'.names x = .ok (some (code x)) := by
  obtain ⟨c, l₁, hplan, hextends, hlisted, hobjects, hreads⟩ := reads_of_link h
  obtain ⟨hc, hn, -⟩ := plan_eq_ok hplan
  have hsettings : l'.settings = l.settings := by
    obtain ⟨a, -, -, rfl⟩ := plan_eq_ok_iff.1 hplan
    exact hextends.sameNames.2.trans (settings_foldl_invalidate _)
  have hremembers : ∀ x ∈ linked.objects, Remembers g l' x (l'.rememberedCode x) := fun x hx =>
    remembers_of_mem_objects hobjects hreads hx
  refine ⟨fun stage => ((stages.get? stage).map g.emission).getD [], l'.rememberedCode,
    fun stage m hm => ?_, fun stage hnone => ?_, ?_, fun x hx => ?_, fun k σ held hg hrun x hx => ?_⟩
  · obtain ⟨source, hget, hsource⟩ := exists_reads hreads hm
    refine ⟨source, hget, ?_⟩
    show EmitsClosure g _ _ _ m (((stages.get? stage).map g.emission).getD []) source
    rw [hm, ← hsettings]
    exact hsource.emitsClosure hc (Stages.mem_toList_of_get? hm)
  · refine ⟨congrArg (fun given => (Option.map g.emission given).getD []) hnone, ?_⟩
    have hstage := hreads stage
    rw [hnone] at hstage
    generalize linked.sources.get? stage = written at hstage
    cases hstage
    rfl
  · rw [hobjects]
    obtain ⟨vertex, fragment⟩ := stages
    cases vertex <;> cases fragment <;> simp [Stages.toList, Stages.get?]
  · obtain ⟨-, he⟩ := (hc.objects x).1 (hlisted ▸ hx)
    exact places_of_plan hplan hextends he (hremembers x hx)
  · subst hg
    obtain ⟨hneeds, he⟩ := (hc.objects x).1 (hlisted ▸ hx)
    have hn' : c.AllNamed l'.names := by rwa [hextends.sameNames.1]
    exact definition_eq_of_run hrun h hc hn' hneeds he (hremembers x hx)

/-- A session with a function that two others call, a fourth that calls these, and a varying that is
linked to a call of the fourth. -/
def diamondSession : Session :=
  Session.empty.edited 0 [.function "float base() \x7b return 1.0; \x7d",
    .function "float left() \x7b return $x(); \x7d", .bind ⟨2⟩ "x" ⟨1⟩,
    .function "float right() \x7b return $x(); \x7d", .bind ⟨3⟩ "x" ⟨1⟩,
    .function "float both() \x7b return $x() + $y(); \x7d", .bind ⟨4⟩ "x" ⟨2⟩, .bind ⟨4⟩ "y" ⟨3⟩,
    .call ⟨4⟩ [], .varying "shade" none, .link ⟨6⟩ ⟨5⟩]

/-- Stages of which the first assigns the call to the varying and has nothing attached, and the
second has one of the functions attached. -/
def diamondStages : Stages StageMain :=
  ⟨some { template := [.text "void main() \x7b\n\x7d"], staticNames := [], attachments := []
          outputs := [(.varying ⟨6⟩, ⟨5⟩)] },
    some (hookMain.attach ⟨"hook", ⟨3⟩, none⟩)⟩

/-- The sources of these stages. -/
def diamondSources : Stages String :=
  ⟨some ("#version 120\nvarying float shade;\nfloat base() \x7b return 1.0; \x7d\n" ++
      "float left() \x7b return base(); \x7d\nfloat right() \x7b return base(); \x7d\n" ++
      "float both() \x7b return left() + right(); \x7d\n" ++
      "void main() \x7b\n    shade = both();\n\x7d"),
    some ("#version 120\nfloat base() \x7b return 1.0; \x7d\n" ++
      "float right() \x7b return base(); \x7d\nright")⟩

/-- The function that is needed in several ways is emitted once in each stage, and before those that
call it. What an output assigns is emitted like what is attached. -/
theorem link_emits_closure_diamond :
    ∃ linked l', (link (diamondSession.graphs 0) diamondStages).run
        (new { Settings.default with version := some "120" }) = .ok linked l' ∧
      linked.sources = diamondSources ∧ linked.objects = [⟨6⟩, ⟨1⟩, ⟨2⟩, ⟨3⟩, ⟨4⟩] ∧
      ∃ (order : Stage → List ObjectId) (code : ObjectId → String),
        linked.objects = (order .vertex ++ order .fragment).eraseDups ∧
        ∀ stage m, diamondStages.get? stage = some m → ∃ source,
          linked.sources.get? stage = some source ∧
            EmitsClosure (diamondSession.graphs 0) (some "120") l'.names code m (order stage)
              source := by
  have hlinked : ((outcome (link (diamondSession.graphs 0) diamondStages)
      (new { Settings.default with version := some "120" })).toOption) =
      some ⟨diamondSources, [⟨6⟩, ⟨1⟩, ⟨2⟩, ⟨3⟩, ⟨4⟩]⟩ := by
    decide +kernel
  rw [outcome] at hlinked
  cases h : (link (diamondSession.graphs 0) diamondStages).run
      (new { Settings.default with version := some "120" }) with
  | error e l' =>
    rw [h] at hlinked
    cases hlinked
  | ok linked l' =>
    rw [h] at hlinked
    obtain rfl : linked = _ := Option.some.inj hlinked
    obtain ⟨order, code, hstages, -, hlisted, -⟩ := link_emits_closure h
    exact ⟨_, l', rfl, rfl, rfl, order, code, hlisted, hstages⟩

end Linker

end ShaderLink
