import ShaderLink.Proofs.Graph.References
import ShaderLink.Proofs.Linker.Again
import ShaderLink.Proofs.Linker.Cache
import ShaderLink.Proofs.Naming.Rounds

/-!
# What a linking writes

A definition is **up to date** if the linker remembers it and would use it again
(`Linker.UpToDate`). A linking writes each object once at most (`Linker.nodup_recompiled`), because
what it has written is up to date from then on. And it writes nothing that was up to date, unless
the object itself or one that it refers to is called otherwise from then on
(`Linker.upToDate_link`).

All of this holds of linkings that fail as well.
-/

namespace ShaderLink

namespace Linker

open ShaderLink.Graph
open MonadExcept (ofExcept)

variable {g : Graph} {stages : Stages StageMain} {c : Closure} {l l₁ : Linker} {x y : ObjectId}
  {ids : List ObjectId} {p : Linker → Prop}

/-- The linker remembers a definition of an object that it would use again. -/
def UpToDate (g : Graph) (l : Linker) (x : ObjectId) : Prop := ∃ code, Remembers g l x code

/-- What is up to date is so for every linker with the same name and the same definition of it. -/
theorem UpToDate.congr {l' : Linker} (h : UpToDate g l x) (hname : l'.names[x]? = l.names[x]?)
    (hdefinition : l'.definitions[x]? = l.definitions[x]?) : UpToDate g l' x := by
  obtain ⟨code, name, revision, hn, hr, hd⟩ := h
  exact ⟨code, name, revision, hname.trans hn, hr, hdefinition.trans hd⟩

/-! ### Writing -/

/-- A definition that is not used again is written and listed, and up to date from then on. -/
theorem stateAfter_define_cases (g : Graph) (x : ObjectId) (l : Linker) :
    stateAfter (define g x) l = l ∨ ¬ UpToDate g l x ∧ ∃ d, l.names[x]? = some d.name ∧
      g.revision x = .ok d.revision ∧ stateAfter (define g x) l = { l with
        recompiled := l.recompiled ++ [x], definitions := l.definitions.insert x d } := by
  unfold stateAfter
  cases hname : nameIn l.names x with
  | error e => exact .inl (by simp [define, EStateM.run_bind, EStateM.run_get, hname])
  | ok name =>
    cases hrevision : g.revision x with
    | error e => exact .inl (by simp [define, EStateM.run_bind, EStateM.run_get, hname, hrevision])
    | ok revision =>
      rw [run_define hname hrevision]
      cases hhit : l.definitions[x]?.filter fun d => d.name = name ∧ d.revision = revision with
      | some d => exact .inl rfl
      | none =>
        cases hcode : g.definition? l.names x with
        | error e => exact .inl rfl
        | ok code =>
          refine .inr ⟨?_, ⟨name, revision, code.getD ""⟩, nameIn_eq_ok_iff.1 hname, rfl, rfl⟩
          -- what is up to date would have been used
          rintro ⟨code', hremembers⟩
          have hrun := run_define_of_remembers hremembers
          rw [run_define hname hrevision, hhit, hcode] at hrun
          have hlisted := congrArg Linker.recompiled (EStateM.Result.ok.inj hrun).2
          simp at hlisted

/-- Writing other definitions leaves what is up to date so. -/
theorem UpToDate.define (h : UpToDate g l x) (y : ObjectId) :
    UpToDate g (stateAfter (define g y) l) x := by
  obtain hsame | ⟨hstale, d, -, -, hwritten⟩ := stateAfter_define_cases g y l
  · rwa [hsame]
  · have hxy : y ≠ x := fun hxy => hstale (hxy ▸ h)
    rw [hwritten]
    exact h.congr rfl (by simp [Std.ExtTreeMap.getElem?_insert, hxy])

/-- What all definitions keep, a linking keeps while it writes. -/
theorem keeps_writeStages (h : ∀ y, Keeps p (define g y)) (stages : Stages StageMain)
    (c : Closure) : Keeps p (writeStages g stages c) := by
  have hstage : ∀ order m, Keeps p (writeStage g order m) := fun order m =>
    (keeps_mapM fun y _ => h y).bind fun _ =>
      keeps_get_bind fun _ => (keeps_ofExcept _).bind fun _ => keeps_pure _
  exact (keeps_optionMapM fun m _ => hstage _ m).bind fun _ =>
    (keeps_optionMapM fun m _ => hstage _ m).bind fun _ => keeps_pure _

theorem keeps_names_define (names : Names) (y : ObjectId) :
    Keeps (fun l => l.names = names) (define g y) := by
  intro l hl
  obtain hsame | ⟨-, d, -, -, hwritten⟩ := stateAfter_define_cases g y l
  · rwa [hsame]
  · rwa [hwritten]

/-- What is up to date is not written. -/
theorem keeps_upToDate_define (x y : ObjectId) :
    Keeps (fun l => UpToDate g l x ∧ x ∉ l.recompiled) (define g y) := by
  rintro l ⟨hx, hunlisted⟩
  refine ⟨hx.define y, ?_⟩
  obtain hsame | ⟨hstale, d, -, -, hwritten⟩ := stateAfter_define_cases g y l
  · rwa [hsame]
  · have hxy : x ≠ y := fun hxy => hstale (hxy ▸ hx)
    rw [hwritten]
    simpa [hxy] using hunlisted

/-- What has been written is up to date, so it is not written again. -/
theorem keeps_nodup_define (y : ObjectId) :
    Keeps (fun l => l.recompiled.Nodup ∧ ∀ x ∈ l.recompiled, UpToDate g l x) (define g y) := by
  rintro l ⟨hnodup, hlisted⟩
  have hkept : ∀ x ∈ l.recompiled, UpToDate g (stateAfter (define g y) l) x := fun x hx =>
    (hlisted x hx).define y
  obtain hsame | ⟨hstale, d, hname, hrevision, hwritten⟩ := stateAfter_define_cases g y l
  · rw [hsame]
    exact ⟨hnodup, hlisted⟩
  · rw [hwritten] at hkept ⊢
    refine ⟨?_, fun x hx => ?_⟩
    · have hy : y ∉ l.recompiled := fun hy => hstale (hlisted y hy)
      simpa using hnodup.append (List.nodup_singleton y) (by simpa using hy)
    · obtain hx | hx := List.mem_append.1 hx
      · exact hkept x hx
      · obtain rfl := List.mem_singleton.1 hx
        exact ⟨d.code, d.name, d.revision, hname, hrevision, by simp⟩

/-! ### Forgetting and planning -/

theorem names_forget (hne : y ≠ x) : (l.forget g y).names[x]? = l.names[x]? := by
  change (l.names.erase y)[x]? = _
  rw [Std.ExtTreeMap.getElem?_erase, if_neg (by simpa using hne)]

/-- Forgetting an object leaves definitions up to date, other than its own and those of objects that
refer to it. -/
theorem upToDate_forget (hg : g.Exact) (hx : UpToDate g l x) (hne : y ≠ x)
    (hrefers : ¬ g.Refers x y) : UpToDate g (l.forget g y) x := by
  have hunreached : x ∉ y :: mentioning g y := by
    rw [List.mem_cons, not_or]
    exact ⟨hne.symm, fun hmem => hrefers (hg.refers_of_mem_mentioning hmem)⟩
  refine hx.congr (names_forget hne) ?_
  rw [forget, definitions_invalidate, if_neg hunreached]

@[simp] theorem recompiled_foldl_invalidate :
    (ids.foldl (fun l x => l.invalidate g x) l).recompiled = l.recompiled := by
  induction ids generalizing l with
  | nil => rfl
  | cons x ids ih => exact ih

/-- Invalidations leave alone what none of the names shows in. -/
theorem definitions_foldl_invalidate_of_notMem (h : ∀ y ∈ ids, x ∉ y :: mentioning g y) :
    (ids.foldl (fun l y => l.invalidate g y) l).definitions[x]? = l.definitions[x]? := by
  induction ids generalizing l with
  | nil => rfl
  | cons y ids ih =>
    rw [List.foldl_cons, ih fun z hz => h z (List.mem_cons_of_mem y hz), definitions_invalidate,
      if_neg (h y List.mem_cons_self)]

/-- Whether an object is emitted and called `name` from then on, and was not before. -/
def IsNamed (g : Graph) (l l' : Linker) (y : ObjectId) (name : String) : Prop :=
  g.Emits y ∧ l'.names[y]? = some name ∧ l.names[y]? ≠ some name

/-- A plan leaves definitions up to date, other than those of objects that it names and of objects
that refer to them. -/
theorem upToDate_plan (hg : g.Exact) (hplan : l.plan g stages = .ok (c, l₁))
    (hx : UpToDate g l x) :
    UpToDate g l₁ x ∨ ∃ y name, IsNamed g l l₁ y name ∧ (y = x ∨ g.Refers x y) := by
  obtain ⟨hc, hnamed, -⟩ := plan_eq_ok hplan
  obtain ⟨a, -, ha, rfl⟩ := plan_eq_ok_iff.1 hplan
  obtain ⟨hfollows, -⟩ := Assignment.ofClosure_eq_ok hc ha
  by_cases hreached : ∃ y ∈ a.renamed, x ∈ y :: mentioning g y
  · obtain ⟨y, hy, hxy⟩ := hreached
    obtain ⟨hmem, hne⟩ := Assignment.names_ne_of_mem_renamed hc ha hy
    obtain ⟨name, hname⟩ := hnamed y hmem
    refine .inr ⟨y, name, ⟨((hc.objects y).1 hmem).2, hname, fun hold => hne ?_⟩, ?_⟩
    · rw [names_foldl_invalidate] at hname
      rw [hname, hold]
    · obtain rfl | hxy := List.mem_cons.1 hxy
      · exact .inl rfl
      · exact .inr (hg.refers_of_mem_mentioning hxy)
  · have hunreached : ∀ y ∈ a.renamed, x ∉ y :: mentioning g y := fun y hy hxy =>
      hreached ⟨y, hy, hxy⟩
    refine .inl (hx.congr ?_ (definitions_foldl_invalidate_of_notMem hunreached))
    rw [names_foldl_invalidate]
    exact hfollows.kept x fun hrenamed => hunreached x hrenamed List.mem_cons_self

/-! ### Linking -/

/-- A linking that has no plan only forgets what the last one wrote, any other writes. -/
theorem stateAfter_link_cases (g : Graph) (stages : Stages StageMain) (l : Linker) :
    stateAfter (link g stages) l = l.cleared ∨ ∃ c l₁, l.cleared.plan g stages = .ok (c, l₁) ∧
      l₁.recompiled = [] ∧
      stateAfter (link g stages) l = stateAfter (writeStages g stages c) l₁ := by
  unfold stateAfter
  rw [run_link]
  cases hplan : l.cleared.plan g stages with
  | error e => exact .inl rfl
  | ok r =>
    refine .inr ⟨r.1, r.2, rfl, ?_, rfl⟩
    obtain ⟨a, -, -, heq⟩ := plan_eq_ok_iff.1 hplan
    rw [heq, recompiled_foldl_invalidate]
    rfl

/-- **Linking writes each object once at most.** -/
theorem nodup_recompiled (g : Graph) (stages : Stages StageMain) (l : Linker) :
    (stateAfter (link g stages) l).recompiled.Nodup := by
  obtain hcleared | ⟨c, l₁, -, hempty, hwrite⟩ := stateAfter_link_cases g stages l
  · rw [hcleared]
    exact List.nodup_nil
  · rw [hwrite]
    refine (keeps_writeStages keeps_nodup_define stages c l₁ ?_).1
    simp [hempty]

/-- The names that a linking leaves are those of its plan. -/
theorem names_writeStages : (stateAfter (writeStages g stages c) l).names = l.names :=
  keeps_writeStages (keeps_names_define l.names) stages c l rfl

/-- Linking takes no name away. -/
theorem exists_name_link {name : String} (h : l.names[y]? = some name) :
    ∃ name', (stateAfter (link g stages) l).names[y]? = some name' := by
  obtain hcleared | ⟨c, l₁, hplan, -, hwrite⟩ := stateAfter_link_cases g stages l
  · exact ⟨name, by rw [hcleared]; exact h⟩
  · rw [hwrite, names_writeStages]
    obtain ⟨hc, hnamed, -⟩ := plan_eq_ok hplan
    obtain ⟨a, -, ha, rfl⟩ := plan_eq_ok_iff.1 hplan
    by_cases hy : y ∈ a.renamed
    · exact hnamed y (Assignment.names_ne_of_mem_renamed hc ha hy).1
    · refine ⟨name, ?_⟩
      rw [names_foldl_invalidate, (Assignment.ofClosure_eq_ok hc ha).1.kept y hy]
      exact h

/-- **Linking writes nothing that is up to date**, other than objects that it names and objects that
refer to them. -/
theorem upToDate_link (hg : g.Exact) (stages : Stages StageMain) (hx : UpToDate g l x) :
    (UpToDate g (stateAfter (link g stages) l) x ∧
        x ∉ (stateAfter (link g stages) l).recompiled) ∨
      ∃ y name, IsNamed g l (stateAfter (link g stages) l) y name ∧ (y = x ∨ g.Refers x y) := by
  obtain hcleared | ⟨c, l₁, hplan, hempty, hwrite⟩ := stateAfter_link_cases g stages l
  · rw [hcleared]
    exact .inl ⟨hx, List.not_mem_nil⟩
  · rw [hwrite]
    obtain hplanned | ⟨y, name, hnamed, hrefers⟩ := upToDate_plan (l := l.cleared) hg hplan hx
    · exact .inl (keeps_writeStages (keeps_upToDate_define x) stages c l₁
        ⟨hplanned, by simp [hempty]⟩)
    · refine .inr ⟨y, name, ?_, hrefers⟩
      rwa [IsNamed, names_writeStages]

end Linker

end ShaderLink
