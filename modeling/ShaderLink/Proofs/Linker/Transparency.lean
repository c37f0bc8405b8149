import ShaderLink.Proofs.Linker.Cache

/-!
# Remembering definitions makes no difference

A run mixes edits of a session with linkings of one of its graphs by one linker, and has the linker
forget objects (`Linker.Run`). What a linking of the run answers is what it would answer if the
linker remembered the names but no definition (`Linker.link_transparent`).

From every faithful linker with the same names and settings, writing the stages yields the same
(`yields_writeStages`), and a linker that remembers no definition is faithful. It remains to show
that the linker of a run is always faithful (`Run.sound`).
-/

namespace ShaderLink

namespace Linker

open ShaderLink.Graph
open MonadExcept (ofExcept)

variable {g : Graph} {names : Names} {settings : Settings} {stages : Stages StageMain} {c : Closure}
  {l l' l₁ : Linker} {held : ObjectId → Prop} {x : ObjectId} {k : Nat} {σ : Session}

/-! ### Writing from a faithful linker -/

/-- The source of a stage if nothing is remembered. -/
def plainStage (g : Graph) (names : Names) (version : Option String) (order : List ObjectId)
    (m : StageMain) : Except LinkError String := do
  let definitions ← order.mapM fun x => (·.getD "") <$> g.definition? names x
  let main ← mainText g names m
  return assemble version definitions main

/-- The sources of some stages if nothing is remembered. -/
def plainStages (g : Graph) (names : Names) (version : Option String) (stages : Stages StageMain)
    (c : Closure) : Except LinkError Linked := do
  let vertex ← stages.vertex.mapM (plainStage g names version (c.stages.vertex.getD []))
  let fragment ← stages.fragment.mapM (plainStage g names version (c.stages.fragment.getD []))
  return { sources := ⟨vertex, fragment⟩, objects := c.objects }

theorem yields_writeStage (hc : c.Collected g stages) (hn : c.AllNamed names)
    (hwf : g.AllWellFormed) (hheld : ∀ x ∈ g.ids, held x) {stage : Stage} {m : StageMain}
    (hm : stages.get? stage = some m) :
    Yields (FaithfulWith held g names settings)
      (writeStage g ((c.stages.get? stage).getD []) m)
      (plainStage g names settings.version ((c.stages.get? stage).getD []) m) := by
  obtain ⟨order, horder, hneeds⟩ := hc.exists_order hm
  rw [horder, Option.getD_some]
  -- the definitions are the same one by one, and the main code goes by names and settings
  refine (yields_mapM fun x hx => ?_).bind fun definitions _ => yields_get_bind fun l hl => ?_
  · exact yields_define hc hn hwf hheld (hneeds x hx).1 (hneeds x hx).2
  · rw [hl.names, hl.settings]
    exact (yields_ofExcept _).bind fun main _ => yields_pure _

/-- **Writing the stages yields the same** from every faithful linker. -/
theorem yields_writeStages (hc : c.Collected g stages) (hn : c.AllNamed names)
    (hwf : g.AllWellFormed) (hheld : ∀ x ∈ g.ids, held x) :
    Yields (FaithfulWith held g names settings) (writeStages g stages c)
      (plainStages g names settings.version stages c) := by
  refine (yields_optionMapM fun m hm => ?_).bind fun vertex _ =>
    (yields_optionMapM fun m hm => ?_).bind fun fragment _ => yields_pure _
  · exact yields_writeStage hc hn hwf hheld (show stages.get? .vertex = some m from hm)
  · exact yields_writeStage hc hn hwf hheld (show stages.get? .fragment = some m from hm)

/-- A plan leaves a faithful linker faithful. -/
theorem Faithful.plan (h : Faithful held g l) (hg : g.Exact)
    (hplan : l.plan g stages = .ok (c, l₁)) : Faithful held g l₁ := by
  obtain ⟨a, hcollect, ha, rfl⟩ := plan_eq_ok_iff.1 hplan
  obtain ⟨hfollows, -⟩ := Assignment.ofClosure_eq_ok (Closure.collected_of_collect hcollect) ha
  exact h.rename hg a.renamed a.names fun y hy => hfollows.kept y hy

/-- Definitions play no part in a plan. -/
theorem plan_congr (g : Graph) (stages : Stages StageMain) (h : SameNames l l') :
    (∃ e, l.plan g stages = .error e ∧ l'.plan g stages = .error e) ∨
      ∃ c l₁ l₁', l.plan g stages = .ok (c, l₁) ∧ l'.plan g stages = .ok (c, l₁') ∧
        SameNames l₁ l₁' := by
  obtain ⟨hnames, hsettings⟩ := h
  cases hc : Closure.collect g stages with
  | error e => exact .inl ⟨e, by simp [Linker.plan, hc], by simp [Linker.plan, hc]⟩
  | ok c =>
    cases ha : Assignment.ofClosure g l.settings.naming l.settings.reserveKeywords l.names c with
    | error e => exact .inl ⟨e, by simp [Linker.plan, hc, ha],
        by simp [Linker.plan, hc, hnames, hsettings, ha]⟩
    | ok a =>
      have ha' : Assignment.ofClosure g l'.settings.naming l'.settings.reserveKeywords l'.names c =
          .ok a := by rw [hnames, hsettings, ha]
      exact .inr ⟨c, _, _, plan_eq_ok_iff.2 ⟨a, hc, ha, rfl⟩, plan_eq_ok_iff.2 ⟨a, hc, ha', rfl⟩,
        by simp, by simp [hsettings]⟩

/-- **A linking of a faithful linker** answers what it would answer if no definition were
remembered, and leaves the linker faithful. -/
theorem Faithful.link (h : Faithful held g l) (hg : g.Exact) (hwf : g.AllWellFormed)
    (hheld : ∀ x ∈ g.ids, held x) (stages : Stages StageMain) :
    outcome (link g stages) l = outcome (link g stages) { l with definitions := ∅ } ∧
      Faithful held g (stateAfter (link g stages) l) := by
  have hcleared : Faithful held g l.cleared := h
  have hempty : Faithful held g ({ l with definitions := ∅ } : Linker).cleared :=
    faithful_of_empty rfl
  unfold outcome stateAfter
  rw [run_link, run_link]
  obtain ⟨e, he, he'⟩ | ⟨c, l₁, l₁', hplan, hplan', hsame⟩ := plan_congr g stages
    (show SameNames l.cleared ({ l with definitions := ∅ } : Linker).cleared from ⟨rfl, rfl⟩)
  · rw [he, he']
    exact ⟨rfl, h⟩
  · rw [hplan, hplan']
    -- both plans leave a faithful linker with the same names, and from both the same is written
    obtain ⟨hc, hn, -⟩ := plan_eq_ok hplan
    have hyields : Yields (FaithfulWith held g l₁.names l₁.settings) _ _ :=
      yields_writeStages hc hn hwf hheld
    obtain ⟨hout, hfaithful⟩ := hyields l₁ ⟨hcleared.plan hg hplan, rfl, rfl⟩
    obtain ⟨hout', -⟩ := hyields l₁' ⟨hempty.plan hg hplan', hsame.1, hsame.2⟩
    exact ⟨hout.trans hout'.symm, hfaithful.faithful⟩

/-! ### Runs -/

/-- **A run of one linker over one graph of a session.** `held` are the objects that the graph has
held so far. None of them is added again, and no zero takes the place of the other in a constant. -/
inductive Run (k : Nat) : Session → (ObjectId → Prop) → Linker → Prop where
  | start (settings : Settings) : Run k .empty (fun _ => False) (new settings)
  | act {σ : Session} {held : ObjectId → Prop} {l : Linker} (h : Run k σ held l)
      (a : Session.Action) (ha : a.Possible σ) (hadd : ∀ x, a.Adds k x → ¬ held x)
      (hzero : ¬ a.FlipsZero σ k) :
      Run k (a.perform σ) (fun x => held x ∨ x ∈ ((a.perform σ).graphs k).ids) l
  | link {σ : Session} {held : ObjectId → Prop} {l : Linker} (h : Run k σ held l)
      (stages : Stages StageMain) : Run k σ held (stateAfter (link (σ.graphs k) stages) l)
  | forget {σ : Session} {held : ObjectId → Prop} {l : Linker} (h : Run k σ held l)
      (x : ObjectId) : Run k σ held (l.forget (σ.graphs k) x)

/-- What a run keeps. -/
structure Sound (k : Nat) (σ : Session) (held : ObjectId → Prop) (l : Linker) : Prop where
  tracks : σ.Tracks k held
  exact : (σ.graphs k).Exact
  faithful : Faithful held (σ.graphs k) l

theorem Sound.act (h : Sound k σ held l) {a : Session.Action} (ha : a.Possible σ)
    (hadd : ∀ x, a.Adds k x → ¬ held x) (hzero : ¬ a.FlipsZero σ k) :
    Sound k (a.perform σ) (fun x => held x ∨ x ∈ ((a.perform σ).graphs k).ids) l := by
  obtain ⟨new, hnew, hsteps⟩ := h.tracks.steps ha hadd
  exact { tracks := h.tracks.act ha
          exact := Steps.exact hsteps h.exact
          faithful := h.faithful.steps h.exact hsteps hzero hnew h.tracks.complete
            fun _ hx => .inl hx }

theorem Sound.link (h : Sound k σ held l) (stages : Stages StageMain) :
    outcome (Linker.link (σ.graphs k) stages) l =
        outcome (Linker.link (σ.graphs k) stages) { l with definitions := ∅ } ∧
      Faithful held (σ.graphs k) (stateAfter (Linker.link (σ.graphs k) stages) l) :=
  h.faithful.link h.exact (h.tracks.lawful.store k).wellFormed h.tracks.complete stages

/-- **The linker of a run is faithful.** -/
theorem Run.sound (h : Run k σ held l) : Sound k σ held l := by
  induction h with
  | start settings =>
    exact { tracks := Session.tracks_empty k, exact := fun _ _ => rfl,
            faithful := faithful_of_empty rfl }
  | act _ a ha hadd hzero ih => exact ih.act ha hadd hzero
  | link _ stages ih => exact { ih with faithful := (ih.link stages).2 }
  | forget _ x ih => exact { ih with faithful := ih.faithful.forget ih.exact x }

/-- **Remembering definitions makes no difference**: whatever a run did before, a linking answers
the sources, or fails, as if the linker had remembered the names and no definition. -/
theorem link_transparent (h : Run k σ held l) (stages : Stages StageMain) :
    outcome (link (σ.graphs k) stages) l =
      outcome (link (σ.graphs k) stages) { l with definitions := ∅ } :=
  (h.sound.link stages).1

/-- A session in which a variable has a truth value. -/
def truthSession : Session :=
  (Session.Action.edit 0 (.setValue ⟨1⟩ (.bool true))).perform
    ((Session.Action.edit 0 (.unassigned "u")).perform .empty)

/-- The session in which the variable has become a number. -/
def numberSession : Session :=
  (Session.Action.edit 0 (.setValue ⟨1⟩ (.int 3))).perform truthSession

/-- A stage to which the variable is attached. -/
def variableStages : Stages StageMain := ⟨some (hookMain.attach ⟨"hook", ⟨1⟩, none⟩), none⟩

/-- The declaration as a truth value is remembered and not used for the number. -/
theorem link_transparent_number :
    let l := stateAfter (link (truthSession.graphs 0) variableStages) (new .default)
    (∃ held, Run 0 numberSession held l) ∧
      l.definitions[(⟨1⟩ : ObjectId)]?.map (·.code) = some "uniform bool u;" ∧
      outcome (link (numberSession.graphs 0) variableStages) l =
        outcome (link (numberSession.graphs 0) variableStages) { l with definitions := ∅ } ∧
      ∃ linked, outcome (link (numberSession.graphs 0) variableStages) l = .ok linked := by
  intro l
  obtain ⟨held, hrun⟩ : ∃ held, Run 0 numberSession held l := by
    have h₁ := Run.act (.start (k := 0) .default) (.edit 0 (.unassigned "u")) trivial
      (fun x hx => absurd hx Session.Action.not_adds_edit) (Session.Action.not_flipsZero_edit id)
    have h₂ := h₁.act (.edit 0 (.setValue ⟨1⟩ (.bool true))) trivial
      (fun x hx => absurd hx Session.Action.not_adds_edit)
      (Session.Action.not_flipsZero_edit fun ⟨_, _, _, _, _, hzeros⟩ =>
        Value.not_oppositeZeros (b := .bool true) nofun hzeros)
    have h₃ := (h₂.link variableStages).act (.edit 0 (.setValue ⟨1⟩ (.int 3))) trivial
      (fun x hx => absurd hx Session.Action.not_adds_edit)
      (Session.Action.not_flipsZero_edit fun ⟨_, _, _, _, _, hzeros⟩ =>
        Value.not_oppositeZeros (b := .int 3) nofun hzeros)
    exact ⟨_, h₃⟩
  have hok : (outcome (link (numberSession.graphs 0) variableStages) l).toOption.isSome = true := by
    decide +kernel
  refine ⟨⟨held, hrun⟩, by decide +kernel, link_transparent hrun variableStages, ?_⟩
  cases hlinked : outcome (link (numberSession.graphs 0) variableStages) l with
  | ok linked => exact ⟨linked, rfl⟩
  | error e =>
    rw [hlinked] at hok
    cases hok

end Linker

end ShaderLink
