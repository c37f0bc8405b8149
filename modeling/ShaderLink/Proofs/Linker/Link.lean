import ShaderLink.Proofs.Linker.Emission
import ShaderLink.Proofs.Store.Kinds

/-!
# Linking fails early or not at all

A linking first makes a plan, which remembers nothing if it fails, and then writes the stages
(`Linker.run_link`). Writing finds every name and definition it asks for, so a linking that fails
leaves what the linker remembers as it was (`Linker.link_failure_keeps`).
-/

namespace ShaderLink

namespace Linker

open MonadExcept (ofExcept)

variable {g : Graph} {stages : Stages StageMain} {c : Closure} {l l' l₁ : Linker} {names : Names}
  {x : ObjectId}

/-! ### Planning -/

@[simp] theorem names_foldl_invalidate (ids : List ObjectId) :
    (ids.foldl (fun l x => l.invalidate g x) l).names = l.names := by
  induction ids generalizing l with
  | nil => rfl
  | cons x ids ih => exact ih

@[simp] theorem settings_foldl_invalidate (ids : List ObjectId) :
    (ids.foldl (fun l x => l.invalidate g x) l).settings = l.settings := by
  induction ids generalizing l with
  | nil => rfl
  | cons x ids ih => exact ih

theorem plan_eq_ok_iff : l.plan g stages = .ok (c, l₁) ↔ ∃ a, Closure.collect g stages = .ok c ∧
    Assignment.ofClosure g l.settings.naming l.settings.reserveKeywords l.names c = .ok a ∧
    l₁ = a.renamed.foldl (fun l x => l.invalidate g x) { l with names := a.names } := by
  unfold plan
  constructor
  · intro h
    obtain ⟨c', hc, h⟩ := Except.bind_eq_ok_iff.1 h
    obtain ⟨a, ha, h⟩ := Except.bind_eq_ok_iff.1 h
    cases h
    exact ⟨a, hc, ha, rfl⟩
  · rintro ⟨a, hc, ha, rfl⟩
    rw [hc, Except.ok_bind, ha]
    rfl

/-- Everything that will be emitted is named. -/
theorem allNamed_of_ofClosure {style : NamingStyle} {keywords : Bool} {a : Assignment}
    (hc : c.Collected g stages) (ha : Assignment.ofClosure g style keywords names c = .ok a) :
    c.AllNamed a.names := by
  intro x hx
  obtain ⟨name, hname, -⟩ := (Assignment.ofClosure_eq_ok hc ha).2 x hx
  exact ⟨name, hname⟩

/-- A plan names everything that will be emitted, each by a name of its own. -/
theorem plan_eq_ok (h : l.plan g stages = .ok (c, l₁)) :
    c.Collected g stages ∧ c.AllNamed l₁.names ∧
      ∀ x ∈ c.objects, ∀ y ∈ c.objects, l₁.names[x]? = l₁.names[y]? → x = y := by
  obtain ⟨a, hcollect, ha, rfl⟩ := plan_eq_ok_iff.1 h
  have hc := Closure.collected_of_collect hcollect
  obtain ⟨-, hnamed⟩ := Assignment.ofClosure_eq_ok hc ha
  rw [names_foldl_invalidate]
  exact ⟨hc, allNamed_of_ofClosure hc ha, fun x hx y hy => hnamed.injective hx hy⟩

/-! ### Writing -/

/-- What a linking does once it has a plan. -/
def writeStages (g : Graph) (stages : Stages StageMain) (c : Closure) :
    EStateM LinkError Linker Linked := do
  let vertex ← stages.vertex.mapM (writeStage g (c.stages.vertex.getD []))
  let fragment ← stages.fragment.mapM (writeStage g (c.stages.fragment.getD []))
  return { sources := ⟨vertex, fragment⟩, objects := c.objects }

/-- A linker that has forgotten what its last linking wrote. -/
def cleared (l : Linker) : Linker := { l with recompiled := [] }

/-- **A linking** makes a plan and carries it out. -/
theorem run_link (g : Graph) (stages : Stages StageMain) (l : Linker) :
    (link g stages).run l = match l.cleared.plan g stages with
      | .ok (c, l₁) => (writeStages g stages c).run l₁
      | .error e => .error e l.cleared := by
  change (ofExcept (l.cleared.plan g stages) >>= _ : EStateM LinkError Linker Linked).run
    l.cleared = _
  cases l.cleared.plan g stages <;> rfl

theorem link_eq_ok {linked : Linked} (h : (link g stages).run l = .ok linked l') :
    ∃ c l₁, l.cleared.plan g stages = .ok (c, l₁) ∧
      (writeStages g stages c).run l₁ = .ok linked l' := by
  rw [run_link] at h
  cases hplan : l.cleared.plan g stages with
  | error e =>
    rw [hplan] at h
    cases h
  | ok r =>
    rw [hplan] at h
    exact ⟨r.1, r.2, rfl, h⟩

/-- The linker remembers the same names and settings. -/
def SameNames (l l' : Linker) : Prop := l'.names = l.names ∧ l'.settings = l.settings

/-- A definition is the remembered one or is written. -/
theorem run_define {name : String} {revision : Nat} (hname : Graph.nameIn l.names x = .ok name)
    (hrevision : g.revision x = .ok revision) :
    (define g x).run l =
      match l.definitions[x]?.filter fun d => d.name = name ∧ d.revision = revision with
      | some d => .ok d.code l
      | none => match g.definition? l.names x with
        | .ok code => .ok (code.getD "") { l with
            recompiled := l.recompiled ++ [x]
            definitions := l.definitions.insert x { name, revision, code := code.getD "" } }
        | .error e => .error e l := by
  simp only [define, EStateM.run_bind, EStateM.run_get, hname, hrevision, run_ofExcept_ok]
  cases l.definitions[x]?.filter fun d => d.name = name ∧ d.revision = revision with
  | some d => rfl
  | none => cases g.definition? l.names x <;> rfl

/-- What is emitted and valid can be defined, whatever the linker remembers of it. -/
theorem answers_define (hc : c.Collected g stages) (hn : c.AllNamed names)
    (hwf : g.AllWellFormed) (hx : Closure.Needs g stages x) (he : g.Emits x) :
    Answers (fun l => l.names = names) (define g x) := by
  rintro l rfl
  obtain ⟨name, -, hname⟩ := hn.nameIn hc hx he
  obtain ⟨o, ho, -⟩ := he
  obtain ⟨n, hnode, -⟩ := Graph.find?_eq_some_iff.1 ho
  have hrevision : g.revision x = .ok n.revision := Graph.revision_eq_ok_iff.2 ⟨n, hnode, rfl⟩
  rw [run_define hname hrevision]
  cases l.definitions[x]?.filter fun d => d.name = name ∧ d.revision = n.revision with
  | some d => exact ⟨d.code, l, rfl, rfl⟩
  | none =>
    obtain ⟨code, hcode⟩ := hc.definition_eq_ok hn hwf hx
    rw [hcode]
    exact ⟨_, _, rfl, rfl⟩

/-- A stage can be written if its outputs assign variables. -/
theorem answers_writeStage (hc : c.Collected g stages) (hn : c.AllNamed names)
    (hwf : g.AllWellFormed) {stage : Stage} {m : StageMain} (hm : stages.get? stage = some m)
    (hemits : ∀ id e, (.varying id, e) ∈ m.outputs → g.Emits id) :
    Answers (fun l => l.names = names) (writeStage g ((c.stages.get? stage).getD []) m) := by
  obtain ⟨order, horder, hneeds⟩ := hc.exists_order hm
  rw [horder, Option.getD_some]
  refine (answers_mapM fun x hx => ?_).bind fun definitions => answers_get_bind fun l hl => ?_
  · exact answers_define hc hn hwf (hneeds x hx).1 (hneeds x hx).2
  · have htext := hc.mainText_eq_ok hn (Stages.mem_toList_of_get? hm) hemits
    rw [hl]
    exact (answers_ofExcept htext).bind fun main => answers_pure _

/-- **Once a plan is made, writing does not fail.** -/
theorem answers_writeStages (hc : c.Collected g stages) (hn : c.AllNamed names)
    (hwf : g.AllWellFormed)
    (hemits : ∀ m ∈ stages.toList, ∀ id e, (.varying id, e) ∈ m.outputs → g.Emits id) :
    Answers (fun l => l.names = names) (writeStages g stages c) := by
  have hstage : ∀ stage m, stages.get? stage = some m → Answers (fun l => l.names = names)
      (writeStage g ((c.stages.get? stage).getD []) m) := fun stage m hm =>
    answers_writeStage hc hn hwf hm (hemits m (Stages.mem_toList_of_get? hm))
  exact (answers_optionMapM fun m hm => hstage .vertex m hm).bind fun vertex =>
    (answers_optionMapM fun m hm => hstage .fragment m hm).bind fun fragment => answers_pure _

/-- **A linking that fails leaves what is remembered alone**, in every graph of every session, with
main codes that were made there; and only collecting and naming can fail. -/
theorem link_failure_keeps {σ : Session} (hσ : σ.Reachable) {stages : Stages StageMain}
    (hmains : ∀ m ∈ stages.toList, m ∈ σ.mains) (k : Nat) (l : Linker) :
    (∀ e l', (link (σ.graphs k) stages).run l = .error e l' →
      l'.names = l.names ∧ l'.definitions = l.definitions) ∧
    ∀ c a, Closure.collect (σ.graphs k) stages = .ok c →
      Assignment.ofClosure (σ.graphs k) l.settings.naming l.settings.reserveKeywords l.names c =
        .ok a → ∃ linked l', (link (σ.graphs k) stages).run l = .ok linked l' := by
  have hplanned : ∀ c l₁, l.cleared.plan (σ.graphs k) stages = .ok (c, l₁) →
      ∃ linked l', (link (σ.graphs k) stages).run l = .ok linked l' := by
    intro c l₁ hplan
    obtain ⟨hc, hn, -⟩ := plan_eq_ok hplan
    rw [run_link, hplan]
    -- the varyings that main codes assign are variables wherever they are
    have hemits : ∀ m ∈ stages.toList, ∀ id e, (.varying id, e) ∈ m.outputs →
        (σ.graphs k).Emits id := by
      intro m hm id e hid
      have hroot := Closure.mem_roots_of_output hid (x := id) (by simp [StageMain.outputObjects])
      obtain ⟨o, ho⟩ := hc.present id (Closure.needs_of_mem_roots hm hroot)
      exact ⟨o, ho, hσ.typed.emitted_of_output (hmains m hm) hid ho⟩
    obtain ⟨linked, l', hwrite, -⟩ :=
      answers_writeStages hc hn (hσ.lawful.store k).wellFormed hemits l₁ rfl
    exact ⟨linked, l', hwrite⟩
  refine ⟨fun e l' h => ?_, fun c a hc ha => ?_⟩
  · -- it can only have failed over the plan, which remembers nothing then
    cases hplan : l.cleared.plan (σ.graphs k) stages with
    | error e' =>
      rw [run_link, hplan] at h
      cases h
      exact ⟨rfl, rfl⟩
    | ok r =>
      obtain ⟨linked, l'', hlink⟩ := hplanned r.1 r.2 hplan
      rw [h] at hlink
      cases hlink
  · exact hplanned c _ (plan_eq_ok_iff.2 ⟨a, hc, ha, rfl⟩)

/-- The main code of a stage with one hook. -/
def hookMain : StageMain :=
  { template := [.placeholder "hook"], staticNames := [], attachments := [], outputs := [] }

/-- A session in which a variable without a value is attached to a hook. -/
def unassignedSession : Session :=
  (Session.Action.attach hookMain ⟨"hook", ⟨1⟩, none⟩).perform
    ((Session.Action.readMain "$hook").perform
      ((Session.Action.edit 0 (.unassigned "u")).perform .empty))

/-- The variable cannot be declared, and the linker keeps the name that it remembers. -/
theorem link_failure_keeps_unassigned :
    let stages : Stages StageMain := ⟨some (hookMain.attach ⟨"hook", ⟨1⟩, none⟩), none⟩
    let l : Linker := { Linker.new .default with names := (∅ : Names).insert ⟨1⟩ "v" }
    unassignedSession.Reachable ∧ (∀ m ∈ stages.toList, m ∈ unassignedSession.mains) ∧
      ∃ l', (link (unassignedSession.graphs 0) stages).run l = .error (.unassigned "u") l' ∧
        l'.names = l.names ∧ l'.definitions = l.definitions := by
  intro stages l
  have hcode : (StageMain.ofCode "$hook").toOption = some hookMain := by decide +kernel
  have hreachable : unassignedSession.Reachable := by
    refine .act (.act (.act .empty (.edit 0 (.unassigned "u")) trivial) (.readMain "$hook") trivial)
      (.attach hookMain ⟨"hook", ⟨1⟩, none⟩) ?_
    simp [Session.Action.Possible, Session.Action.perform, hcode]
  have hmains : ∀ m ∈ stages.toList, m ∈ unassignedSession.mains := by
    intro m hm
    obtain rfl : m = hookMain.attach ⟨"hook", ⟨1⟩, none⟩ := by
      simpa [stages, Stages.toList] using hm
    exact List.mem_cons_self
  have hrun : failure? (link (unassignedSession.graphs 0) stages) l = some (.unassigned "u") := by
    decide +kernel
  -- evaluation shows the error, and what is kept follows from there being one
  obtain ⟨l', hl'⟩ := exists_run_of_failure? hrun
  obtain ⟨hnames, hdefinitions⟩ := (link_failure_keeps hreachable hmains 0 l).1 _ l' hl'
  exact ⟨hreachable, hmains, l', hl', hnames, hdefinitions⟩

end Linker

end ShaderLink
