import ShaderLink.Proofs.Linker.Again
import ShaderLink.Proofs.Program.Request

/-!
# Programs that need no linking

A program is **settled** in a graph if linking it would answer what it was linked to last and change
nothing that matters (`Program.Settled`). It is so right after it was linked (`settled_of_link`),
and linking it once more keeps it so (`Settled.link`).
-/

namespace ShaderLink

namespace Linker

variable {g : Graph} {stages : Stages StageMain} {l l' : Linker} {linked : Linked} {x y : ObjectId}

theorem run_link_cleared : (link g stages).run l.cleared = (link g stages).run l := by
  rw [run_link, run_link]
  rfl

theorem objects_of_writeStages {c : Closure} (h : (writeStages g stages c).run l = .ok linked l') :
    linked.objects = c.objects := by
  obtain ⟨vertex, l₁, -, h⟩ := run_bind_eq_ok_iff.1 h
  obtain ⟨fragment, l₂, -, h⟩ := run_bind_eq_ok_iff.1 h
  cases h
  rfl

/-- A stage that is there has a source. -/
theorem exists_source_of_optionMapM {f : StageMain → EStateM LinkError Linker String}
    {m : StageMain} {source : Option String} (h : ((some m).mapM f).run l = .ok source l') :
    ∃ text, source = some text := by
  rw [Option.mapM_some, map_eq_pure_bind] at h
  obtain ⟨text, l₁, -, h⟩ := run_bind_eq_ok_iff.1 h
  cases h
  exact ⟨text, rfl⟩

theorem sources_of_link {v f : StageMain} (h : (link g ⟨some v, some f⟩).run l = .ok linked l') :
    ∃ vertex fragment, linked.sources = ⟨some vertex, some fragment⟩ := by
  obtain ⟨c, l₁, -, hwrite⟩ := link_eq_ok h
  obtain ⟨vertex, l₂, hvertex, hwrite⟩ := run_bind_eq_ok_iff.1 hwrite
  obtain ⟨fragment, l₃, hfragment, hwrite⟩ := run_bind_eq_ok_iff.1 hwrite
  obtain ⟨_, rfl⟩ := exists_source_of_optionMapM hvertex
  obtain ⟨_, rfl⟩ := exists_source_of_optionMapM hfragment
  cases hwrite
  exact ⟨_, _, rfl⟩

/-- **What is emitted has a name of its own.** -/
theorem names_of_link (h : (link g stages).run l = .ok linked l') :
    (∀ x ∈ linked.objects, ∃ name, l'.names[x]? = some name) ∧
      ∀ x ∈ linked.objects, ∀ y ∈ linked.objects, l'.names[x]? = l'.names[y]? → x = y := by
  obtain ⟨c, l₁, hplan, hwrite⟩ := link_eq_ok h
  obtain ⟨-, hnamed, hinjective⟩ := plan_eq_ok hplan
  -- writing keeps the names of the plan
  obtain ⟨hextends, -⟩ := repeats_writeStages stages c l₁ linked l' hwrite
  rw [hextends.sameNames.1, objects_of_writeStages hwrite]
  exact ⟨hnamed, hinjective⟩

/-- Nothing is listed twice. -/
theorem nodup_of_link (h : (link g stages).run l = .ok linked l') : linked.objects.Nodup := by
  obtain ⟨c, l₁, hplan, hwrite⟩ := link_eq_ok h
  rw [objects_of_writeStages hwrite]
  exact (plan_eq_ok hplan).1.nodup

end Linker

namespace Program

variable {g : Graph} {p p' : Program} {linked : Linked}

/-- The linker of a program once it has forgotten what is detached. -/
def forgotten (p : Program) (g : Graph) : Linker :=
  p.detached.foldl (fun l id => l.forget g id) p.linker

theorem checkAttached_congr (h : p'.hooks = p.hooks) (l : List (String × ObjectId)) :
    p'.checkAttached g l = p.checkAttached g l := by
  induction l with
  | nil => rfl
  | cons a l ih =>
    obtain ⟨hook, object⟩ := a
    rw [checkAttached, checkAttached, h, ih]

theorem checkHooks_congr {r : Except ProgramError Unit} (h : p.checkHooks g = r)
    (hhooks : p'.hooks = p.hooks) (hattached : p'.attached = p.attached) :
    p'.checkHooks g = r := by
  unfold checkHooks at *
  rw [hattached, checkAttached_congr hhooks, h]

/-- **Linking a program** forgets what is detached, checks the hooks, and has the linker link. -/
theorem run_link (p : Program) (g : Graph) :
    (link g).run p = match p.checkHooks g with
      | .error e => .error e { p with linker := p.forgotten g, detached := [] }
      | .ok () => match (Linker.link g p.stages).run (p.forgotten g) with
        | .ok linked l => .ok linked { p with linker := l, detached := [] }
        | .error e l => .error (.link e) { p with linker := l, detached := [] } := by
  -- the check of the hooks is the same before and after forgetting
  have hcheck : ({ p with linker := p.forgotten g, detached := [] } : Program).checkHooks g =
      p.checkHooks g := checkHooks_congr rfl rfl rfl
  change (MonadExcept.ofExcept (({ p with linker := p.forgotten g, detached := [] } :
    Program).checkHooks g) >>= _ : ProgramM Linked).run _ = _
  rw [hcheck, EStateM.run_bind]
  cases p.checkHooks g with
  | error e => rfl
  | ok u =>
    rw [run_ofExcept_ok]
    dsimp only
    change EStateM.run (match (Linker.link g p.stages).run (p.forgotten g) with
      | .ok linked l => _
      | .error e l => _) _ = _
    cases (Linker.link g p.stages).run (p.forgotten g) <;> rfl

/-- What links has passed the check of the hooks, and the linker has answered. -/
theorem of_run_link (h : (link g).run p = .ok linked p') : p.checkHooks g = .ok () ∧
    ∃ l, (Linker.link g p.stages).run (p.forgotten g) = .ok linked l ∧
      p' = { p with linker := l, detached := [] } := by
  rw [run_link] at h
  cases hcheck : p.checkHooks g with
  | error e =>
    rw [hcheck] at h
    cases h
  | ok u =>
    rw [hcheck] at h
    dsimp only at h
    cases hlink : (Linker.link g p.stages).run (p.forgotten g) with
    | error e l =>
      rw [hlink] at h
      cases h
    | ok answer l =>
      rw [hlink] at h
      cases h
      exact ⟨rfl, l, rfl, rfl⟩

/-- Linking changes the linker and forgets what is detached. -/
theorem stateAfter_link (p : Program) (g : Graph) :
    ∃ l, stateAfter (link g) p = { p with linker := l, detached := [] } := by
  rw [stateAfter, run_link]
  cases p.checkHooks g with
  | error e => exact ⟨_, rfl⟩
  | ok u => cases (Linker.link g p.stages).run (p.forgotten g) <;> exact ⟨_, rfl⟩

/-- Linking leaves what draws have left behind, whether it succeeds or not. -/
theorem sameDrawn_link (p : Program) (g : Graph) : SameDrawn p (stateAfter (link g) p) := by
  obtain ⟨l, hl⟩ := stateAfter_link p g
  rw [hl]
  exact ⟨rfl, rfl, rfl⟩

theorem sameDrawn_of_link (h : (link g).run p = .ok linked p') : SameDrawn p p' :=
  stateAfter_eq_of_ok h ▸ sameDrawn_link p g

/-- **A settled program** would be linked to what it was linked to last. -/
def Settled (p : Program) (g : Graph) : Prop :=
  ∃ linked, p.linked = some linked ∧ p.detached = [] ∧ p.checkHooks g = .ok () ∧
    (Linker.link g p.stages).run p.linker = .ok linked p.linker.cleared

theorem Settled.link (h : Settled p g) : ∃ linked, p.linked = some linked ∧
    (link g).run p = .ok linked { p with linker := p.linker.cleared } := by
  obtain ⟨linked, hlinked, hdetached, hcheck, hlink⟩ := h
  refine ⟨linked, hlinked, ?_⟩
  -- nothing is detached, so nothing is forgotten
  have hforgotten : p.forgotten g = p.linker := by
    rw [forgotten, hdetached]
    rfl
  rw [run_link, hcheck, hforgotten, hlink]
  cases p
  cases hdetached
  rfl

/-- Linking a settled program leaves it settled. -/
theorem Settled.stateAfter_link (h : Settled p g) : Settled (stateAfter (Program.link g) p) g := by
  obtain ⟨_, -, hrun⟩ := h.link
  obtain ⟨linked, hlinked, hdetached, hcheck, hlink⟩ := h
  rw [stateAfter_eq_of_ok hrun]
  refine ⟨linked, hlinked, hdetached, checkHooks_congr hcheck rfl rfl, ?_⟩
  exact Linker.run_link_cleared.trans hlink

/-- What was sent plays no part. -/
theorem Settled.withSent (h : Settled p g) (sent : Std.ExtTreeMap String (ObjectId × Nat)) :
    Settled { p with sent } g := by
  obtain ⟨linked, hlinked, hdetached, hcheck, hlink⟩ := h
  exact ⟨linked, hlinked, hdetached, checkHooks_congr hcheck rfl rfl, hlink⟩

/-- **A program that has just been linked is settled**, once it has noted what it was linked to. -/
theorem settled_of_link (h : (link g).run p = .ok linked p') (dirty : Bool)
    (generation : Option Nat) :
    Settled { p' with linked := some linked, dirty, generation } g := by
  obtain ⟨hcheck, l, hlink, rfl⟩ := of_run_link h
  exact ⟨linked, rfl, rfl, checkHooks_congr hcheck rfl rfl, Linker.link_again hlink⟩

end Program

end ShaderLink
