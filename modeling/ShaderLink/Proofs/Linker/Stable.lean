import ShaderLink.Proofs.Graph.Values
import ShaderLink.Proofs.Linker.Sources

/-!
# Linking when nothing that matters has changed

After a linking, values are assigned that report no change of a definition, and stages are linked
that ask for no more than those of the first linking (`Linker.AsksNoMore`). The second linking
renames nothing and writes no definition, and if the stages are the same so are the sources
(`Linker.link_stable`).

Two things make it so. Naming finds every name free when its turn comes, whatever the order
(`Assignment.ofClosure_within`), so nothing is invalidated; and every definition that is asked for
was remembered by the first linking, for a revision that quiet assignments leave alone.
-/

namespace ShaderLink

namespace Linker

open ShaderLink.Graph
open MonadExcept (ofExcept)

variable {g g' : Graph} {stages stages' : Stages StageMain} {c c' : Closure} {l l' l'' : Linker}
  {linked linked' : Linked} {m : StageMain} {order : List ObjectId} {x : ObjectId}
  {code source : String}

/-- **Stages that ask for no more.** They need only objects that the others need, under the names
that the others require for them, and their code declares only names that the code of the others
declares. -/
structure AsksNoMore (g g' : Graph) (stages stages' : Stages StageMain) : Prop where
  needs : ∀ x, Closure.Needs g' stages' x → Closure.Needs g stages x
  requires : ∀ x, Closure.Needs g' stages' x → ∀ name,
    Closure.Requires (stages'.toList.flatMap StageMain.attachments) x name ↔
      Closure.Requires (stages.toList.flatMap StageMain.attachments) x name
  declares : ∀ name ∈ stages'.toList.flatMap StageMain.staticNames,
    name ∈ stages.toList.flatMap StageMain.staticNames

/-! ### Naming -/

/-- The closure of stages that ask for no more asks for no more. -/
theorem AsksNoMore.within (h : AsksNoMore g g' stages stages') (hsame : g.SameApart g')
    (hc : c.Collected g stages) (hc' : c'.Collected g' stages') : Assignment.Within g g' c c' := by
  have hobjects : ∀ x ∈ c'.objects, x ∈ c.objects := by
    intro x hx
    obtain ⟨hneeds, hemits⟩ := (hc'.objects x).1 hx
    refine (hc.objects x).2 ⟨h.needs x hneeds, ?_⟩
    rwa [← emits_iff, ← hsame.emits_eq, emits_iff]
  refine { objects := hobjects, fixed := fun x hx => ?_, reserved := fun name hname => ?_ }
  · have hneeds := ((hc'.objects x).1 hx).1
    have hrequired : c'.required[x]? = c.required[x]? := by
      refine Option.ext fun name => ?_
      rw [hc'.required, hc.required]
      exact h.requires x hneeds name
    rw [hsame.fixedOf_eq, Assignment.fixedOf, Assignment.fixedOf]
    unfold Assignment.fixedName?
    rw [hrequired]
  · rw [List.mem_append] at hname ⊢
    refine hname.imp (fun hname => ?_) fun hname => ?_
    · rw [hc'.reserved] at hname
      rw [hc.reserved]
      exact h.declares name hname
    · obtain ⟨x, hx, hname⟩ := List.mem_flatMap.1 hname
      refine List.mem_flatMap.2 ⟨x, hobjects x hx, ?_⟩
      rwa [hsame.map_find? fun o => by cases o <;> rfl] at hname

/-! ### Writing -/

theorem Remembers.sameApart (h : Remembers g l x code) (hsame : g.SameApart g') :
    Remembers g' l x code := by
  obtain ⟨name, revision, hname, hrevision, hd⟩ := h
  exact ⟨name, revision, hname, by rw [hsame.revision_eq, hrevision], hd⟩

/-- A stage whose definitions are all remembered is written without changing the linker. -/
theorem stateAfter_writeStage_eq_self (h : ∀ x ∈ order, ∃ code, Remembers g l x code) :
    stateAfter (writeStage g order m) l = l := by
  refine keeps_self_iff.1 <| (keeps_mapM fun x hx => keeps_self_iff.2 ?_).bind fun codes =>
    keeps_self_iff.2 ?_
  · obtain ⟨code, hcode⟩ := h x hx
    exact stateAfter_eq_of_ok (run_define_of_remembers hcode)
  · -- the main code only looks at the linker
    change stateAfter (ofExcept (mainText g l.names m) >>= fun main =>
      pure (assemble l.settings.version codes main) : EStateM LinkError Linker String) l = l
    cases mainText g l.names m <;> rfl

theorem stateAfter_writeStages_eq_self (hc : c.Collected g stages)
    (h : ∀ x ∈ c.objects, ∃ code, Remembers g l x code) :
    stateAfter (writeStages g stages c) l = l := by
  have hstage : ∀ stage, ∀ m ∈ stages.get? stage,
      stateAfter (writeStage g ((c.stages.get? stage).getD []) m) l = l := by
    intro stage m hm
    obtain ⟨order, horder, hneeds⟩ := hc.exists_order hm
    rw [horder]
    exact stateAfter_writeStage_eq_self fun x hx => h x ((hc.objects x).2 (hneeds x hx))
  refine keeps_self_iff.1 <| (keeps_optionMapM fun m hm => ?_).bind fun _ =>
    (keeps_optionMapM fun m hm => ?_).bind fun _ => keeps_pure _
  · exact keeps_self_iff.2 (hstage .vertex m hm)
  · exact keeps_self_iff.2 (hstage .fragment m hm)

/-! ### Sources -/

theorem outputLines_sameApart (hsame : g.SameApart g') (names : Names)
    (outputs : List (Output × ObjectId)) :
    outputLines g' names outputs = outputLines g names outputs := by
  induction outputs with
  | nil => rfl
  | cons p rest ih =>
    obtain ⟨output, expression⟩ := p
    simp only [outputLines, hsame.expression_eq, ih]

/-- Values do not show in a main code. -/
theorem mainText_sameApart (hsame : g.SameApart g') (names : Names) (m : StageMain) :
    mainText g' names m = mainText g names m := by
  unfold mainText
  rw [hsame.expression_eq]
  simp only [outputLines_sameApart hsame]

theorem Reads.sameApart (h : Reads g l order m source) (hsame : g.SameApart g') :
    Reads g' l order m source := by
  obtain ⟨codes, main, hcodes, hmain, hsource⟩ := h
  refine ⟨codes, main, hcodes.imp fun _ _ hx => hx.sameApart hsame, ?_, hsource⟩
  rw [mainText_sameApart hsame, hmain]

/-- A linker reads one source for a stage. -/
theorem Reads.unique {source' : String} (h : Reads g l order m source)
    (h' : Reads g l order m source') : source = source' := by
  obtain ⟨codes, main, hcodes, hmain, rfl⟩ := h
  obtain ⟨codes', main', hcodes', hmain', rfl⟩ := h'
  rw [hmain] at hmain'
  obtain rfl := Except.ok.inj hmain'
  rw [map_rememberedCode hcodes, map_rememberedCode hcodes']

theorem ReadsGiven.sameApart {given : Option StageMain} {written : Option String}
    (h : ReadsGiven g l given written) (hsame : g.SameApart g') : ReadsGiven g' l given written := by
  cases h with
  | none => exact .none
  | some h =>
    rw [← hsame.emission_eq] at h
    exact .some (h.sameApart hsame)

theorem ReadsGiven.unique {given : Option StageMain} {written written' : Option String}
    (h : ReadsGiven g l given written) (h' : ReadsGiven g l given written') : written = written' := by
  cases h with
  | none =>
    cases h'
    rfl
  | some h =>
    cases h' with
    | some h' => rw [h.unique h']

/-! ### Linking again -/

/-- **Names and definitions are stable when nothing that matters has changed**, whatever was linked
and remembered before. -/
theorem link_stable {s t : Store} (hlink : (link s.graph stages).run l = .ok linked l')
    (hvalues : s.Revalues t) (hasks : AsksNoMore s.graph t.graph stages stages')
    (hlink' : (link t.graph stages').run l' = .ok linked' l'') :
    l'' = { l' with recompiled := [] } ∧ (stages' = stages → linked'.sources = linked.sources) := by
  have hsame := hvalues.sameApart
  obtain ⟨c, l₁, hplan, hextends, hlisted, hobjects, hreads⟩ := reads_of_link hlink
  obtain ⟨c', l₂, hplan', hwrite'⟩ := link_eq_ok hlink'
  obtain ⟨hc, -, -⟩ := plan_eq_ok hplan
  obtain ⟨hc', -, -⟩ := plan_eq_ok hplan'
  have hwithin := hasks.within hsame hc hc'
  -- the plan of the second linking leaves the linker as it is
  obtain rfl : l₂ = l'.cleared := by
    obtain ⟨a', hcollect', -⟩ := plan_eq_ok_iff.1 hplan'
    have hkept : l'.cleared.plan t.graph stages' = .ok (c', l'.cleared) :=
      plan_within hplan hextends.sameNames hcollect' hwithin
    rw [hplan'] at hkept
    exact (Prod.mk.inj (Except.ok.inj hkept)).2
  -- and everything it writes is remembered
  have hremembers : ∀ x ∈ c'.objects, ∃ code, Remembers t.graph l'.cleared x code := by
    intro x hx
    have hx' : x ∈ linked.objects := hlisted ▸ hwithin.objects x hx
    have hremembered : Remembers s.graph l'.cleared x (l'.rememberedCode x) :=
      remembers_of_mem_objects hobjects hreads hx'
    exact ⟨_, hremembered.sameApart hsame⟩
  have hunchanged : l'' = l'.cleared := by
    rw [← stateAfter_eq_of_ok hwrite']
    exact stateAfter_writeStages_eq_self hc' hremembers
  refine ⟨hunchanged, ?_⟩
  rintro rfl
  obtain ⟨-, -, -, -, -, -, hreads'⟩ := reads_of_link hlink'
  -- both sources of a stage read the same in the linker that both linkings leave
  have hsources : ∀ stage, linked'.sources.get? stage = linked.sources.get? stage := by
    intro stage
    have hafter := hreads' stage
    rw [hunchanged] at hafter
    have hbefore : ReadsGiven s.graph l'.cleared _ _ := hreads stage
    exact hafter.unique (hbefore.sameApart hsame)
  calc linked'.sources = ⟨linked'.sources.get? .vertex, linked'.sources.get? .fragment⟩ := rfl
    _ = ⟨linked.sources.get? .vertex, linked.sources.get? .fragment⟩ := by rw [hsources, hsources]
    _ = linked.sources := rfl

/-- Stages that attach objects which others attach as well, under no required names and with no names
of their own. -/
theorem asksNoMore_of_roots (hsame : g.SameApart g')
    (hroots : ∀ r ∈ stages'.toList.flatMap StageMain.roots,
      r ∈ stages.toList.flatMap StageMain.roots)
    (hrequired : ∀ a ∈ (stages.toList ++ stages'.toList).flatMap StageMain.attachments,
      a.requiredName = none)
    (hdeclares : stages'.toList.flatMap StageMain.staticNames = []) :
    AsksNoMore g g' stages stages' where
  needs := fun x hx => by
    rw [Closure.Needs, hsame.dependencies_eq] at hx
    exact hx.mono hroots
  requires := fun x _ name => by
    rw [List.flatMap_append] at hrequired
    constructor
    · rintro ⟨a, ha, -, hname⟩
      rw [hrequired a (List.mem_append_right _ ha)] at hname
      cases hname
    · rintro ⟨a, ha, -, hname⟩
      rw [hrequired a (List.mem_append_left _ ha)] at hname
      cases hname
  declares := fun name hname => by
    rw [hdeclares] at hname
    cases hname

/-- A store with a function that is bound to a variable of the name of its own argument. -/
def clashStore : Store :=
  (Session.empty.edited 0 [.valued "level" (.int 3),
    .function "float height(float level) { return level + $x; }", .bind ⟨2⟩ "x" ⟨1⟩]).store 0

/-- The store in which the bound variable has another value. -/
def raisedStore : Store :=
  stateAfter (Store.setValue ⟨1⟩ (.int 5)) clashStore

/-- A stage that the function is attached to, and one that the variable alone is attached to. -/
def clashStages : Stages StageMain × Stages StageMain :=
  (⟨some (hookMain.attach ⟨"hook", ⟨2⟩, none⟩), some (hookMain.attach ⟨"hook", ⟨1⟩, none⟩)⟩,
    ⟨none, some (hookMain.attach ⟨"hook", ⟨1⟩, none⟩)⟩)

/-- Without the function the name of its argument is free, and the variable keeps the other name that
it was given because of it. -/
theorem link_stable_clash :
    ∃ linked l' linked' l'',
      (link clashStore.graph clashStages.1).run (new .default) = .ok linked l' ∧
      (link raisedStore.graph clashStages.2).run l' = .ok linked' l'' ∧
      clashStore.Revalues raisedStore ∧
      AsksNoMore clashStore.graph raisedStore.graph clashStages.1 clashStages.2 ∧
      linked'.objects = [⟨1⟩] ∧ l'.names[(⟨1⟩ : ObjectId)]? = some "level_1" ∧
      l'' = { l' with recompiled := [] } := by
  have hquiet : ¬ clashStore.graph.ReportsChange ⟨1⟩ (.int 5) := by
    rintro ⟨v, w, hv, hset⟩
    have hreport : ((clashStore.graph.getVariable ⟨1⟩).toOption.bind fun v =>
        (v.setValue (.int 5)).toOption.map Prod.snd) = some false := by decide +kernel
    rw [Graph.getVariable_eq_ok_iff.2 hv] at hreport
    simp [Except.toOption, hset] at hreport
  have hvalues : clashStore.Revalues raisedStore := .setValue .refl ⟨1⟩ (.int 5) hquiet
  have hasks : AsksNoMore clashStore.graph raisedStore.graph clashStages.1 clashStages.2 :=
    asksNoMore_of_roots hvalues.sameApart (by decide) (by decide) rfl
  have hfirst : (outcome (link clashStore.graph clashStages.1) (new .default)).toOption.isSome = true ∧
      (stateAfter (link clashStore.graph clashStages.1) (new .default)).names[(⟨1⟩ : ObjectId)]? =
        some "level_1" := by
    decide +kernel
  have hsecond : (outcome (link raisedStore.graph clashStages.2)
      (stateAfter (link clashStore.graph clashStages.1) (new .default))).toOption.map
        Linked.objects = some [⟨1⟩] := by
    decide +kernel
  unfold outcome stateAfter at hfirst hsecond
  cases hlink : (link clashStore.graph clashStages.1).run (new .default) with
  | error e l' =>
    rw [hlink] at hfirst
    cases hfirst.1
  | ok linked l' =>
    rw [hlink] at hfirst hsecond
    dsimp only at hfirst hsecond
    cases hlink' : (link raisedStore.graph clashStages.2).run l' with
    | error e l'' =>
      rw [hlink'] at hsecond
      cases hsecond
    | ok linked' l'' =>
      rw [hlink'] at hsecond
      exact ⟨linked, l', linked', l'', rfl, hlink', hvalues, hasks, Option.some.inj hsecond,
        hfirst.2, (link_stable hlink hvalues hasks hlink').1⟩

end Linker

end ShaderLink
