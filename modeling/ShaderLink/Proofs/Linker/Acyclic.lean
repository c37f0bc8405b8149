import ShaderLink.Proofs.Linker.Again
import ShaderLink.Proofs.Linker.Transparency
import ShaderLink.Proofs.Store.Acyclic

/-!
# Linking reports no circle

A graph to which nothing was added that was made elsewhere has no circles, and linking it never
reports one (`Linker.no_cycles`), whatever the stages are and whatever the linker remembers.

Two places can report a circle. Collecting looks for one, and finds none where dependencies can be
ranked. An expression that is unfolded deeper than there are objects is reported as well, but once a
plan is made every expression can be written. All other errors are about something else.
-/

namespace ShaderLink

open Relation

/-- Whether an error is no report of a circle. -/
def LinkError.NotCyclic : LinkError → Prop
  | cyclicDependency _ => False
  | _ => True

/-! ### Validation -/

theorem Snippet.failsOnly_checkBound {s : Snippet} :
    FailsOnly LinkError.NotCyclic s.checkBound := by
  unfold Snippet.checkBound
  split
  · exact failsOnly_error trivial
  · exact failsOnly_ok _

namespace Graph

variable {g : Graph} {x : ObjectId}

theorem failsOnly_get : FailsOnly LinkError.NotCyclic (g.get x) := by
  unfold get
  cases g.find? x with
  | none => exact failsOnly_error trivial
  | some o => exact failsOnly_ok o

theorem failsOnly_nameIn {names : Names} : FailsOnly LinkError.NotCyclic (nameIn names x) := by
  unfold nameIn
  cases names[x]? with
  | none => exact failsOnly_error trivial
  | some name => exact failsOnly_ok name

theorem failsOnly_callable : FailsOnly LinkError.NotCyclic (g.callable x) := by
  refine failsOnly_get.bind fun o _ => ?_
  cases o.signature? with
  | none => exact failsOnly_error trivial
  | some s => exact failsOnly_ok s

theorem failsOnly_deriveTypes {members : List ObjectId} :
    FailsOnly LinkError.NotCyclic (g.deriveTypes members) := by
  unfold deriveTypes
  split
  · exact failsOnly_callable.bind fun _ _ => failsOnly_callable.bind fun _ _ => failsOnly_ok _
  · exact failsOnly_ok _

theorem failsOnly_checkMembers {chain : String} {flow : Flow} {members : List ObjectId} :
    FailsOnly LinkError.NotCyclic (g.checkMembers chain flow members) := by
  induction members generalizing flow with
  | nil => exact failsOnly_ok _
  | cons y rest ih =>
    rw [checkMembers]
    refine failsOnly_callable.bind fun s _ => ?_
    cases flow with
    | start => exact ih
    | result source type =>
      dsimp only
      split
      · exact ih
      · exact failsOnly_error trivial

theorem failsOnly_checkChain {c : Chain} : FailsOnly LinkError.NotCyclic (g.checkChain c) := by
  unfold checkChain
  split
  · exact failsOnly_deriveTypes.bind fun _ _ => failsOnly_checkMembers
  · exact failsOnly_checkMembers

theorem failsOnly_checkCall {c : Call} : FailsOnly LinkError.NotCyclic (g.checkCall c) := by
  unfold checkCall
  split
  · exact failsOnly_error trivial
  · split
    · exact failsOnly_ok _
    · exact failsOnly_error trivial

theorem failsOnly_checkVariable {v : Variable} :
    FailsOnly LinkError.NotCyclic (g.checkVariable x v) := by
  unfold checkVariable
  split
  · split
    · exact failsOnly_error trivial
    · exact failsOnly_ok _
  · exact failsOnly_error trivial

theorem failsOnly_validate : FailsOnly LinkError.NotCyclic (g.validate x) := by
  refine failsOnly_get.bind fun o _ => ?_
  cases o with
  | var v => exact failsOnly_checkVariable.bind fun _ _ => failsOnly_ok _
  | function s => exact s.failsOnly_checkBound
  | chain c => exact failsOnly_checkChain
  | call c => exact failsOnly_checkCall
  | text code => exact failsOnly_ok _

/-! ### The search for a circle -/

/-- Where nothing depends on itself the objects can be ranked. -/
theorem exists_rank (h : ∀ x, ¬ TransGen (Traversal.Edge g.dependencies) x x) :
    ∃ rank : ObjectId → Nat, ∀ x, ∀ y ∈ g.dependencies x, rank x < rank y :=
  Traversal.exists_rank_of_irreflexive (fun _ _ hy => mem_ids_of_mem_dependencies hy) h

end Graph

namespace Closure

open ShaderLink.Graph

variable {g : Graph} {required : Names} {c : Closure} {stage : Stage} {m : StageMain}

theorem failsOnly_checkReachable {rank : ObjectId → Nat} {roots : List ObjectId}
    (hrank : ∀ x, ∀ y ∈ g.dependencies x, rank x < rank y) :
    FailsOnly LinkError.NotCyclic (checkReachable g roots) := by
  have hpresent : FailsOnly LinkError.NotCyclic (forIn (discovery g roots) PUnit.unit fun id _ => do
      let _ ← g.get id
      pure (.yield PUnit.unit)) :=
    failsOnly_forIn (fun _ _ _ => failsOnly_get.bind fun _ _ => failsOnly_ok _) _
  refine hpresent.bind fun _ _ => ?_
  dsimp only
  -- what was found is among what was mentioned, and so the search starts from it
  rw [Traversal.cycleWitness?_eq_none hrank fun x hx => ?_]
  · exact failsOnly_ok _
  · rw [List.mem_eraseDups, List.mem_flatMap]
    exact ⟨x, hx, List.mem_cons_self⟩

theorem failsOnly_checkHooks : FailsOnly LinkError.NotCyclic (checkHooks m) := by
  unfold checkHooks
  split
  · exact failsOnly_error trivial
  · exact failsOnly_ok _

theorem failsOnly_validated {l : List ObjectId} :
    FailsOnly LinkError.NotCyclic (validated g l) := by
  induction l with
  | nil => exact failsOnly_ok _
  | cons x l ih =>
    exact failsOnly_validate.bind fun _ _ => failsOnly_get.bind fun _ _ => ih.bind fun _ _ =>
      failsOnly_ok _

theorem failsOnly_require {attachments : List Attachment} :
    FailsOnly LinkError.NotCyclic (require g required attachments) := by
  induction attachments generalizing required with
  | nil => exact failsOnly_ok _
  | cons a rest ih =>
    rw [require]
    split
    · exact ih
    · refine failsOnly_get.bind fun o _ => ?_
      dsimp only
      split
      · split
        · split
          · exact ih
          · exact failsOnly_error trivial
        · exact ih
      · exact failsOnly_error trivial

theorem failsOnly_addStage : FailsOnly LinkError.NotCyclic (addStage g c stage m) :=
  failsOnly_checkHooks.bind fun _ _ => failsOnly_validated.bind fun _ _ =>
    failsOnly_require.bind fun _ _ => failsOnly_ok _

theorem failsOnly_collect {rank : ObjectId → Nat} {stages : Stages StageMain}
    (hrank : ∀ x, ∀ y ∈ g.dependencies x, rank x < rank y) :
    FailsOnly LinkError.NotCyclic (collect g stages) := by
  have hadd : ∀ c stage m, FailsOnly LinkError.NotCyclic (addGiven g c stage m) := by
    rintro c stage (_ | m)
    · exact failsOnly_ok c
    · exact failsOnly_addStage
  rw [collect_eq]
  exact (failsOnly_checkReachable hrank).bind fun _ _ => (hadd _ _ _).bind fun _ _ => hadd _ _ _

end Closure

/-! ### Naming -/

theorem Namespace.failsOnly_claim {ns : Namespace} {name : String} {x : ObjectId} :
    FailsOnly LinkError.NotCyclic (ns.claim name x) := by
  unfold claim
  split
  · split
    · exact failsOnly_ok _
    · exact failsOnly_error trivial
  · exact failsOnly_ok _

namespace Assignment

open ShaderLink.Graph

variable {g : Graph} {a : Assignment} {ids : List ObjectId}

theorem failsOnly_fix {required : Names} :
    FailsOnly LinkError.NotCyclic (fix g required a ids) := by
  induction ids generalizing a with
  | nil => exact failsOnly_ok _
  | cons x rest ih =>
    rw [fix]
    refine failsOnly_get.bind fun o _ => ?_
    dsimp only
    split
    · exact ih.bind fun _ _ => failsOnly_ok _
    · split
      · exact failsOnly_error trivial
      · exact Namespace.failsOnly_claim.bind fun _ _ => ih

theorem failsOnly_keep : FailsOnly LinkError.NotCyclic (keep a ids) := by
  induction ids generalizing a with
  | nil => exact failsOnly_ok _
  | cons x rest ih =>
    rw [keep]
    split
    · exact Namespace.failsOnly_claim.bind fun _ _ => ih
    · exact ih.bind fun _ _ => failsOnly_ok _

theorem failsOnly_freshen {style : NamingStyle} :
    FailsOnly LinkError.NotCyclic (freshen g style a ids) := by
  induction ids generalizing a with
  | nil => exact failsOnly_ok _
  | cons x rest ih =>
    exact failsOnly_get.bind fun _ _ => Namespace.failsOnly_claim.bind fun _ _ => ih

theorem failsOnly_ofClosure {style : NamingStyle} {keywords : Bool} {names : Names} {c : Closure} :
    FailsOnly LinkError.NotCyclic (ofClosure g style keywords names c) :=
  failsOnly_fix.bind fun _ _ => failsOnly_keep.bind fun _ _ => failsOnly_freshen

end Assignment

namespace Linker

open ShaderLink.Graph

variable {g : Graph} {stages : Stages StageMain} {c : Closure} {l l' : Linker} {names : Names}
  {m : StageMain}

theorem failsOnly_plan {rank : ObjectId → Nat}
    (hrank : ∀ x, ∀ y ∈ g.dependencies x, rank x < rank y) :
    FailsOnly LinkError.NotCyclic (l.plan g stages) :=
  (Closure.failsOnly_collect hrank).bind fun _ _ => Assignment.failsOnly_ofClosure.bind fun _ _ =>
    failsOnly_ok _

/-! ### Writing -/

/-- Outputs can only fail to be written because what they assign has no name. -/
theorem failsOnly_outputLines (hc : c.Collected g stages) (hn : c.AllNamed names)
    {outputs : List (Output × ObjectId)}
    (hneeds : ∀ p ∈ outputs, ∀ x ∈ StageMain.outputObjects p, Closure.Needs g stages x) :
    FailsOnly LinkError.NotCyclic (outputLines g names outputs) := by
  induction outputs with
  | nil => exact failsOnly_ok _
  | cons p rest ih =>
    obtain ⟨output, expression⟩ := p
    have hexpression : Closure.Needs g stages expression :=
      hneeds _ List.mem_cons_self expression (by cases output <;> simp [StageMain.outputObjects])
    have hvalue : FailsOnly LinkError.NotCyclic (g.expression names expression) :=
      failsOnly_of_ok (hc.expression_eq_ok hn hexpression)
    have hrest := ih fun q hq => hneeds q (List.mem_cons_of_mem _ hq)
    unfold outputLines
    cases output with
    | builtin target => exact hvalue.bind fun _ _ => hrest.bind fun _ _ => failsOnly_ok _
    | varying id =>
      exact failsOnly_nameIn.bind fun _ _ => hvalue.bind fun _ _ => hrest.bind fun _ _ =>
        failsOnly_ok _

theorem failsOnly_mainText (hc : c.Collected g stages) (hn : c.AllNamed names)
    (hm : m ∈ stages.toList) : FailsOnly LinkError.NotCyclic (mainText g names m) := by
  rw [Closure.mainText_eq]
  -- every hook has an expression, so what is left to fail is the outputs
  refine (failsOnly_of_ok (hc.exists_mainCode hn hm)).bind fun _ _ => ?_
  refine FailsOnly.bind ?_ fun _ _ => failsOnly_ok _
  exact failsOnly_outputLines hc hn fun p hp x hx =>
    Closure.needs_of_mem_roots hm (Closure.mem_roots_of_output hp hx)

/-- Definitions can be written, so a stage fails only because its main code cannot. -/
theorem mainText_of_writeStage_error (hc : c.Collected g stages) (hn : c.AllNamed l.names)
    (hwf : g.AllWellFormed) {stage : Stage} (hm : stages.get? stage = some m) {e : LinkError}
    (h : (writeStage g ((c.stages.get? stage).getD []) m).run l = .error e l') :
    mainText g l.names m = .error e := by
  obtain ⟨order, horder, hneeds⟩ := hc.exists_order hm
  rw [horder, Option.getD_some] at h
  obtain ⟨definitions, l₁, hrun, hnames⟩ := answers_mapM
    (fun x hx => answers_define hc hn hwf (hneeds x hx).1 (hneeds x hx).2) l rfl
  obtain h | ⟨_, _, hrun', h⟩ := run_bind_eq_error_iff.1 h
  · rw [hrun] at h
    cases h
  · rw [hrun] at hrun'
    cases hrun'
    change (MonadExcept.ofExcept (mainText g l₁.names m) >>= _ : EStateM _ _ _).run l₁ = _ at h
    rw [hnames] at h
    cases hmain : mainText g l.names m with
    | ok main =>
      rw [hmain] at h
      cases h
    | error e' =>
      rw [hmain] at h
      cases h
      rfl

/-- A stage that is there fails as it does on its own. -/
theorem run_optionMapM_eq_error {f : StageMain → EStateM LinkError Linker String}
    {given : Option StageMain} {e : LinkError} (h : (given.mapM f).run l = .error e l') :
    ∃ m, given = some m ∧ (f m).run l = .error e l' := by
  cases given with
  | none => cases h
  | some m =>
    rw [Option.mapM_some, map_eq_pure_bind] at h
    obtain h | ⟨_, _, _, h⟩ := run_bind_eq_error_iff.1 h
    · exact ⟨m, rfl, h⟩
    · cases h

theorem mainText_of_writeStages_error (hc : c.Collected g stages) (hn : c.AllNamed l.names)
    (hwf : g.AllWellFormed) {e : LinkError} (h : (writeStages g stages c).run l = .error e l') :
    ∃ m ∈ stages.toList, mainText g l.names m = .error e := by
  have hmem : ∀ {stage m}, stages.get? stage = some m → m ∈ stages.toList :=
    Stages.mem_toList_of_get?
  obtain h | ⟨vertex, l₁, hvertex, h⟩ := run_bind_eq_error_iff.1 h
  · obtain ⟨m, hm, h⟩ := run_optionMapM_eq_error h
    have hm : stages.get? .vertex = some m := hm
    exact ⟨m, hmem hm, mainText_of_writeStage_error hc hn hwf hm h⟩
  · -- writing the first stage keeps the names
    have hnames : l₁.names = l.names :=
      (repeats_optionMapM (fun m => repeats_writeStage (c.stages.vertex.getD []) m)
        stages.vertex l vertex l₁ hvertex).1.sameNames.1
    obtain h | ⟨_, _, _, h⟩ := run_bind_eq_error_iff.1 h
    · obtain ⟨m, hm, h⟩ := run_optionMapM_eq_error h
      have hm : stages.get? .fragment = some m := hm
      rw [← hnames]
      exact ⟨m, hmem hm, mainText_of_writeStage_error hc (hnames ▸ hn) hwf hm h⟩
    · cases h

/-- Linking a graph whose dependencies can be ranked reports no circle. -/
theorem failure?_link_ne_cyclic {rank : ObjectId → Nat}
    (hrank : ∀ x, ∀ y ∈ g.dependencies x, rank x < rank y) (hwf : g.AllWellFormed)
    (stages : Stages StageMain) (l : Linker) {e : LinkError}
    (h : failure? (link g stages) l = some e) : e.NotCyclic := by
  obtain ⟨l', h⟩ := exists_run_of_failure? h
  rw [run_link] at h
  cases hplan : l.cleared.plan g stages with
  | error e' =>
    -- nothing was written, so it is collecting or naming that failed
    rw [hplan] at h
    cases h
    exact failsOnly_plan hrank e hplan
  | ok r =>
    obtain ⟨c, l₁⟩ := r
    rw [hplan] at h
    obtain ⟨hc, hn, -⟩ := plan_eq_ok hplan
    obtain ⟨m, hm, hmain⟩ := mainText_of_writeStages_error hc hn hwf h
    exact failsOnly_mainText hc hn hm e hmain

/-- **No circles**, in any graph of a session to which nothing was added that was made elsewhere:
nothing depends on itself, no links of variables run in a circle, and linking reports no circle,
whatever the stages are and whatever the linker remembers. -/
theorem no_cycles {σ : Session} {k : Nat} (h : Session.ReachableBy (Session.AddsNothing k) σ) :
    (∀ x, ¬ TransGen (Traversal.Edge (σ.graphs k).dependencies) x x) ∧
    (∀ x, ¬ TransGen (σ.graphs k).LinkedTo x x) ∧
    ∀ (stages : Stages StageMain) (l : Linker) (x : ObjectId),
      failure? (link (σ.graphs k) stages) l ≠ some (.cyclicDependency x) := by
  have hdependencies : ∀ x, ¬ TransGen (Traversal.Edge (σ.graphs k).dependencies) x x := by
    rw [← points_dependency]
    exact (h.grounded .dependency).irreflexive
  have hlinks : ∀ x, ¬ TransGen (σ.graphs k).LinkedTo x x := by
    rw [← points_link]
    exact (h.grounded .link).irreflexive
  -- dependencies ascend in some rank, and where they do the search for a circle finds none
  obtain ⟨rank, hrank⟩ := exists_rank hdependencies
  refine ⟨hdependencies, hlinks, fun stages l x hfailure => ?_⟩
  have hwf := (h.reachable.lawful.store k).wellFormed
  exact failure?_link_ne_cyclic hrank hwf stages l hfailure

/-- A session of two functions that use each other and two varyings that are linked to each other,
as far as that is accepted. -/
def mutualSession : Session :=
  Session.empty.edited 0 [.function "float $f() { return $a; }", .function "float $g() { return $b; }",
    .varying "v" none, .varying "w" none, .bind ⟨1⟩ "a" ⟨2⟩, .bind ⟨2⟩ "b" ⟨1⟩, .link ⟨3⟩ ⟨4⟩,
    .link ⟨4⟩ ⟨3⟩]

/-- The session in which the second function is gone. -/
def danglingSession : Session :=
  (Session.Action.edit 0 (.remove ⟨2⟩)).perform mutualSession

/-- What would close a circle is refused, and the first function goes on depending on the second
when that is gone. -/
theorem no_cycles_dangling :
    failure? (Store.bind ⟨2⟩ "b" ⟨1⟩) (mutualSession.store 0) = some (.cyclicDependency ⟨2⟩) ∧
      failure? (Store.link ⟨4⟩ ⟨3⟩) (mutualSession.store 0) = some (.cyclicDependency ⟨4⟩) ∧
      (danglingSession.graphs 0).find? ⟨2⟩ = none ∧
      ⟨2⟩ ∈ (danglingSession.graphs 0).dependencies ⟨1⟩ ∧
      Session.ReachableBy (Session.AddsNothing 0) danglingSession ∧
      ¬ TransGen (Traversal.Edge (danglingSession.graphs 0).dependencies) ⟨1⟩ ⟨1⟩ ∧
      ¬ TransGen (danglingSession.graphs 0).LinkedTo ⟨3⟩ ⟨3⟩ ∧
      failure? (link (danglingSession.graphs 0) variableStages) (new .default) ≠
        some (.cyclicDependency ⟨1⟩) := by
  have hmutual : Session.ReachableBy (Session.AddsNothing 0) mutualSession :=
    Session.ReachableBy.empty.edited fun op _ _ => Session.addsNothing_edit op
  have hdangling : Session.ReachableBy (Session.AddsNothing 0) danglingSession :=
    hmutual.act (.edit 0 (.remove ⟨2⟩)) trivial (Session.addsNothing_edit _)
  obtain ⟨hdependencies, hlinks, hlink⟩ := no_cycles hdangling
  refine ⟨by decide +kernel, by decide +kernel, by decide +kernel, by decide +kernel, hdangling,
    hdependencies ⟨1⟩, hlinks ⟨3⟩, hlink variableStages (new .default) ⟨1⟩⟩

end Linker

end ShaderLink
