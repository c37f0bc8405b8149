import ShaderLink.Program.Callbacks
import ShaderLink.Proofs.Store.Hereditary

/-!
# Requests to a program

A **request** is anything that can be asked of a program besides drawing: attaching to its hooks,
changing its callbacks and outputs, and linking it without drawing (`Request`). Every request other
than linking is made of a few kinds of steps, and what it may do before them is to make a chain
(`Request.begun`); so what all requests do is read off the steps. They leave the program as it is or
mark it for linking (`Request.marks`), and hand on whatever edits that give no variable a value hand
on (`Request.all_perform`).
-/

namespace ShaderLink

/-- Something that is asked of a program. -/
inductive Request where
  | setHook (hook : String) (object : ObjectId)
  | unsetHook (hook : String)
  | addChain (hook : String)
  | addCallback (hook : String) (function : ObjectId) (first : Bool)
  | removeCallback (hook : String) (function : ObjectId)
  | assign (stage : Stage) (target : String) (expression : ObjectId)
  | assignVarying (varying expression : ObjectId)
  /-- Linking without drawing. -/
  | link

namespace Request

/-- The workspace that a request leaves, whether it is answered or fails. -/
def perform : Request → Workspace → Workspace
  | setHook hook object => stateAfter (Workspace.onProgram (Program.setHook hook object))
  | unsetHook hook => stateAfter (Workspace.onProgram (Program.unsetHook hook))
  | addChain hook => stateAfter (Workspace.addChain hook)
  | addCallback hook function first => stateAfter (Workspace.addCallback hook function first)
  | removeCallback hook function => stateAfter (Workspace.removeCallback hook function)
  | assign stage target expression =>
    stateAfter (Workspace.onProgram (Program.assign stage target expression))
  | assignVarying varying expression => stateAfter (Workspace.assignVarying varying expression)
  | link => fun w => stateAfter (Workspace.onProgram (Program.link w.store.graph)) w

end Request

namespace Program

/-- What draws have left behind is the same. -/
structure SameDrawn (p p' : Program) : Prop where
  linked : p'.linked = p.linked
  generation : p'.generation = p.generation
  sent : p'.sent = p.sent

/-- Nothing has changed, or the program is due for linking. -/
def Marked (p p' : Program) : Prop := p' = p ∨ (p'.dirty = true ∧ SameDrawn p p')

variable {p p' p'' : Program}

theorem SameDrawn.trans (h : SameDrawn p p') (h' : SameDrawn p' p'') : SameDrawn p p'' :=
  ⟨h'.linked.trans h.linked, h'.generation.trans h.generation, h'.sent.trans h.sent⟩

theorem Marked.refl (p : Program) : Marked p p := .inl rfl

theorem Marked.trans (h : Marked p p') (h' : Marked p' p'') : Marked p p'' := by
  -- once marked, a program stays marked
  obtain rfl | ⟨hdirty, hsame⟩ := h'
  · exact h
  · obtain rfl | ⟨-, hsame'⟩ := h
    · exact .inr ⟨hdirty, hsame⟩
    · exact .inr ⟨hdirty, hsame'.trans hsame⟩

theorem marked_of_dirty (hdirty : p'.dirty = true) (hsame : SameDrawn p p') : Marked p p' :=
  .inr ⟨hdirty, hsame⟩

theorem marked_setMain (p : Program) (m : StageMain) (stage : Stage) :
    Marked p (p.setMain m stage) := by
  cases stage <;> exact marked_of_dirty rfl ⟨rfl, rfl, rfl⟩

theorem marked_detach (hsame : SameDrawn p p') (hdirty : p'.dirty = true) (object : ObjectId) :
    Marked p (p'.detach object) := by
  unfold detach
  split
  · exact .inr ⟨hdirty, hsame⟩
  · exact .inr ⟨hdirty, hsame.linked, hsame.generation, hsame.sent⟩

/-! ### Operations on the program alone -/

theorem run_checkHook (hook : String) (p : Program) : (checkHook hook).run p =
    if p.hooks.contains hook then .ok () p else .error (.unknownHook hook) p := by
  unfold checkHook
  rw [EStateM.run_bind, EStateM.run_get]
  dsimp only
  split <;> rfl

/-- A hook is looked up first, and nothing changes if there is none. -/
theorem stateAfter_checkHook_bind {α : Type} (hook : String) (f : ProgramM α) (p : Program) :
    stateAfter (checkHook hook >>= fun _ => f) p =
      if p.hooks.contains hook then stateAfter f p else p := by
  rw [stateAfter_bind, run_checkHook]
  by_cases h : p.hooks.contains hook = true
  · rw [if_pos h, if_pos h]
  · rw [if_neg h, if_neg h]

/-- The program with an object attached at a hook. -/
def attach (p : Program) (hook : String) (object : ObjectId) : Program :=
  { p with attached := p.attached.insert hook object, dirty := true }

/-- The program with nothing attached at a hook. -/
def free (p : Program) (hook : String) : Program :=
  { p with attached := p.attached.erase hook, dirty := true }

theorem stateAfter_setHook (p : Program) (hook : String) (object : ObjectId) :
    stateAfter (setHook hook object) p = if p.hooks.contains hook then
      match p.attached[hook]? with
      | some old =>
        if old = object then p.attach hook object else (p.attach hook object).detach old
      | none => p.attach hook object
    else p :=
  stateAfter_checkHook_bind hook _ p

theorem stateAfter_unsetHook (p : Program) (hook : String) :
    stateAfter (unsetHook hook) p = if p.hooks.contains hook then
      match p.attached[hook]? with
      | some old => (p.free hook).detach old
      | none => p
    else p := by
  refine (stateAfter_checkHook_bind hook _ p).trans (if_congr Iff.rfl ?_ rfl)
  rw [stateAfter_bind]
  dsimp only [EStateM.run_get]
  cases p.attached[hook]? <;> rfl

theorem stateAfter_assign (p : Program) (stage : Stage) (target : String)
    (expression : ObjectId) : stateAfter (assign stage target expression) p =
      match (p.main stage).assign target expression with
      | .ok m => p.setMain m stage
      | .error _ => p := by
  unfold assign
  rw [stateAfter_bind]
  dsimp only [EStateM.run_get]
  cases (p.main stage).assign target expression <;> rfl

end Program

/-! ### Steps of requests -/

namespace Workspace

variable {w w' w'' : Workspace} {α β : Type}

/-- The workspace with another program. -/
def withProgram (w : Workspace) (p : Program) : Workspace := { w with program := p }

/-- The workspace after an edit of its store, whether it succeeds or fails. -/
def edited (w : Workspace) (edit : Edit α) : Workspace :=
  { w with store := stateAfter edit w.store }

/-- **A step of a request**: something is attached at a hook that there is, a hook is freed, what was
there is noted, an output is assigned, the program is marked for linking, or a member is put into a
chain or taken out of it, or a varying is linked. -/
inductive Step : Workspace → Workspace → Prop where
  | attach (w : Workspace) (hook : String) (object : ObjectId)
      (h : w.program.hooks.contains hook = true) :
      Step w (w.withProgram (w.program.attach hook object))
  | free (w : Workspace) (hook : String) : Step w (w.withProgram (w.program.free hook))
  | detach (w : Workspace) (object : ObjectId) (h : w.program.dirty = true) :
      Step w (w.withProgram (w.program.detach object))
  | output (w : Workspace) (m : StageMain) (stage : Stage) :
      Step w (w.withProgram (w.program.setMain m stage))
  | mark (w : Workspace) : Step w (w.withProgram { w.program with dirty := true })
  | insertMember (w : Workspace) (chain function : ObjectId) :
      Step w (w.edited (Store.insertMember chain 0 function))
  | append (w : Workspace) (chain function : ObjectId) :
      Step w (w.edited (Store.append chain function))
  | removeMember (w : Workspace) (chain function : ObjectId) :
      Step w (w.edited (Store.removeMember chain function))
  | assignVarying (w : Workspace) (varying expression : ObjectId) :
      Step w (w.edited (w.program.vertex.assignVarying varying expression))

/-- Any number of steps. -/
abbrev Steps : Workspace → Workspace → Prop := Relation.ReflTransGen Step

theorem steps_bind {x : WorkspaceM α} {f : α → WorkspaceM β} (hx : Steps w (stateAfter x w))
    (hf : ∀ a t, Steps t (stateAfter (f a) t)) : Steps w (stateAfter (x >>= f) w) :=
  stateAfter_bind_rel (r := Steps) .trans hx fun a t _ => hf a t

theorem stateAfter_onProgram (operation : ProgramM α) (w : Workspace) :
    stateAfter (onProgram operation) w = w.withProgram (stateAfter operation w.program) := by
  unfold onProgram stateAfter
  rw [EStateM.run_bind, EStateM.run_get]
  dsimp only
  cases operation.run w.program <;> rfl

theorem stateAfter_onStore (edit : Edit α) (w : Workspace) :
    stateAfter (onStore edit) w = w.edited edit := by
  unfold onStore edited stateAfter
  rw [EStateM.run_bind, EStateM.run_get]
  dsimp only
  cases edit.run w.store <;> rfl

theorem stateAfter_onProgram_checkHook (hook : String) (w : Workspace) :
    stateAfter (onProgram (Program.checkHook hook)) w = w := by
  have hcheck : stateAfter (Program.checkHook hook) w.program = w.program := by
    rw [stateAfter, Program.run_checkHook]
    by_cases h : w.program.hooks.contains hook = true
    · rw [if_pos h]
    · rw [if_neg h]
  rw [stateAfter_onProgram, hcheck]
  rfl

theorem stateAfter_checkIsChain (hook : String) (object : ObjectId) (w : Workspace) :
    stateAfter (checkIsChain hook object) w = w := by
  unfold checkIsChain
  rw [stateAfter_bind]
  dsimp only [EStateM.run_get]
  cases w.store.graph.getChain object <;> rfl

theorem steps_setHook (hook : String) (object : ObjectId) (w : Workspace) :
    Steps w (stateAfter (onProgram (Program.setHook hook object)) w) := by
  rw [stateAfter_onProgram, Program.stateAfter_setHook]
  split
  · next hhook =>
    have hattach := Step.attach w hook object hhook
    split
    · next old _ =>
      split
      · exact .single hattach
      · exact .tail (.single hattach) (.detach _ old rfl)
    · exact .single hattach
  · exact .refl

theorem steps_unsetHook (hook : String) (w : Workspace) :
    Steps w (stateAfter (onProgram (Program.unsetHook hook)) w) := by
  rw [stateAfter_onProgram, Program.stateAfter_unsetHook]
  split
  · split
    · next old _ => exact .tail (.single (.free w hook)) (.detach _ old rfl)
    · exact .refl
  · exact .refl

theorem steps_assign (stage : Stage) (target : String) (expression : ObjectId) (w : Workspace) :
    Steps w (stateAfter (onProgram (Program.assign stage target expression)) w) := by
  rw [stateAfter_onProgram, Program.stateAfter_assign]
  split
  · next m _ => exact .single (.output w m stage)
  · exact .refl

/-- A callback is put into the chain that there is at its hook. -/
theorem steps_addToHook (hook : String) (function : ObjectId) (first : Bool) (chain : ObjectId)
    (w : Workspace) : Steps w (stateAfter (do
      checkIsChain hook chain
      onStore (if first then Store.prepend chain function else Store.append chain function)
      markDirty : WorkspaceM Unit) w) := by
  refine steps_bind ((stateAfter_checkIsChain hook chain w).symm ▸ .refl) fun _ t => ?_
  refine steps_bind ?_ fun _ t => .single (.mark t)
  rw [stateAfter_onStore]
  split
  · exact .single (.insertMember t chain function)
  · exact .single (.append t chain function)

theorem steps_removeCallback (hook : String) (function : ObjectId) (w : Workspace) :
    Steps w (stateAfter (removeCallback hook function) w) := by
  unfold removeCallback
  refine steps_bind ((stateAfter_onProgram_checkHook hook w).symm ▸ .refl) fun _ t => ?_
  rw [stateAfter_bind]
  dsimp only [EStateM.run_get]
  cases t.program.attached[hook]? with
  | none => exact .refl
  | some chain =>
    refine steps_bind ((stateAfter_checkIsChain hook chain t).symm ▸ .refl) fun _ t => ?_
    refine steps_bind ?_ fun removed t => ?_
    · rw [stateAfter_onStore]
      exact .single (.removeMember t chain function)
    · cases removed with
      | true => exact .single (.mark t)
      | false => exact .refl

theorem steps_assignVarying (varying expression : ObjectId) (w : Workspace) :
    Steps w (stateAfter (assignVarying varying expression) w) := by
  unfold assignVarying
  rw [stateAfter_bind]
  dsimp only [EStateM.run_get]
  refine steps_bind ?_ fun m t => .single (.output t m .vertex)
  rw [stateAfter_onStore]
  exact .single (.assignVarying w varying expression)

/-- **Steps, and before them perhaps a new chain** without members. -/
def Begun (w w' : Workspace) : Prop :=
  ∃ u, (u = w ∨ ∃ hook, u = w.edited (Store.chain hook false [])) ∧ Steps u w'

theorem Begun.trans (h : Begun w w') (h' : Steps w' w'') : Begun w w'' := by
  obtain ⟨u, hu, hsteps⟩ := h
  exact ⟨u, hu, hsteps.trans h'⟩

theorem Steps.begun (h : Steps w w') : Begun w w' := ⟨w, .inl rfl, h⟩

/-- What holds with or without a new chain, and is kept by every step, holds in the end. -/
theorem Begun.induction {P : Workspace → Prop} (h : Begun w w') (hself : P w)
    (hchain : ∀ hook, P (w.edited (Store.chain hook false [])))
    (hstep : ∀ {t u}, Step t u → P t → P u) : P w' := by
  obtain ⟨u, hu, hsteps⟩ := h
  have hfirst : P u := by
    obtain rfl | ⟨hook, rfl⟩ := hu
    · exact hself
    · exact hchain hook
  clear hu
  induction hsteps with
  | refl => exact hfirst
  | tail _ h ih => exact hstep h ih

theorem begun_addChain (hook : String) (w : Workspace) : Begun w (stateAfter (addChain hook) w) := by
  have hchain : Begun w (w.edited (Store.chain hook false [])) := ⟨_, .inr ⟨hook, rfl⟩, .refl⟩
  unfold addChain
  refine stateAfter_bind_of (p := (· = w)) (stateAfter_onProgram_checkHook hook w)
    (fun t ht => ht ▸ Steps.begun .refl) fun _ t ht => ?_
  subst ht
  refine stateAfter_bind_of (p := Begun t) (stateAfter_onStore _ t ▸ hchain) (fun _ hu => hu)
    fun chain u hu => ?_
  exact hu.trans (steps_bind (steps_setHook hook chain u) fun _ _ => .refl)

theorem begun_addCallback (hook : String) (function : ObjectId) (first : Bool) (w : Workspace) :
    Begun w (stateAfter (addCallback hook function first) w) := by
  unfold addCallback
  rw [stateAfter_bind]
  dsimp only [EStateM.run_get]
  cases w.program.attached[hook]? with
  | some chain => exact (steps_addToHook hook function first chain w).begun
  | none =>
    exact stateAfter_bind_of (begun_addChain hook w) (fun _ ht => ht) fun chain t ht =>
      ht.trans (steps_addToHook hook function first chain t)

end Workspace

/-- **Every request that does not link is made of steps**, and may make a chain before them. -/
theorem Request.begun {r : Request} (hr : r ≠ .link) (w : Workspace) :
    Workspace.Begun w (r.perform w) := by
  cases r with
  | setHook hook object => exact (Workspace.steps_setHook hook object w).begun
  | unsetHook hook => exact (Workspace.steps_unsetHook hook w).begun
  | addChain hook => exact Workspace.begun_addChain hook w
  | addCallback hook function first => exact Workspace.begun_addCallback hook function first w
  | removeCallback hook function => exact (Workspace.steps_removeCallback hook function w).begun
  | assign stage target expression => exact (Workspace.steps_assign stage target expression w).begun
  | assignVarying varying expression =>
    exact (Workspace.steps_assignVarying varying expression w).begun
  | link => exact absurd rfl hr

/-! ### Being due for linking -/

namespace Workspace

/-- The store evolves, and the program stays as it is or is due for linking. -/
structure Marks (w w' : Workspace) : Prop where
  store : Store.Evolves False w.store w'.store
  program : w.program.Marked w'.program

variable {w w' w'' : Workspace}

theorem Marks.refl (w : Workspace) : Marks w w := ⟨.refl _, .refl _⟩

theorem Marks.trans (h : Marks w w') (h' : Marks w' w'') : Marks w w'' :=
  ⟨h.store.trans h'.store, h.program.trans h'.program⟩

theorem Step.marks (hw : w.store.Lawful) (h : Step w w') : Marks w w' := by
  have hdue : ∀ {p : Program}, p.dirty = true → Program.SameDrawn w.program p →
      Marks w (w.withProgram p) := fun hdirty hsame =>
    ⟨.refl _, Program.marked_of_dirty hdirty hsame⟩
  cases h with
  | attach hook object _ => exact hdue rfl ⟨rfl, rfl, rfl⟩
  | free hook => exact hdue rfl ⟨rfl, rfl, rfl⟩
  | detach object hdirty =>
    exact ⟨.refl _, Program.marked_detach ⟨rfl, rfl, rfl⟩ hdirty object⟩
  | output m stage => exact ⟨.refl _, Program.marked_setMain w.program m stage⟩
  | mark => exact hdue rfl ⟨rfl, rfl, rfl⟩
  | insertMember chain function => exact ⟨Operation.evolves hw (.prepend chain function), .refl _⟩
  | append chain function => exact ⟨Operation.evolves hw (.append chain function), .refl _⟩
  | removeMember chain function =>
    exact ⟨Operation.evolves hw (.removeMember chain function), .refl _⟩
  | assignVarying varying expression =>
    exact ⟨StageMain.evolves_assignVarying hw _ varying expression, .refl _⟩

theorem Begun.marks (hw : w.store.Lawful) (h : Begun w w') : Marks w w' :=
  h.induction (.refl w) (fun hook => ⟨Operation.evolves hw (.chain hook false []), .refl _⟩)
    fun hstep hmarks => hmarks.trans (hstep.marks (hmarks.store.lawful hw))

end Workspace

/-- **Every request** evolves the store, and one that does not link leaves the program as it is or
marks it for linking. -/
theorem Request.marks {w : Workspace} (hw : w.store.Lawful) {r : Request} (hr : r ≠ .link) :
    Workspace.Marks w (r.perform w) :=
  (r.begun hr w).marks hw

/-! ### What requests hand on -/

namespace Workspace

variable {I : ObjectId → Object → Prop} {new given rewritten : ObjectId → Prop} {w w' : Workspace}

/-- Whether all objects of the store have a property. -/
def All (I : ObjectId → Object → Prop) (w : Workspace) : Prop := w.store.All I

theorem Step.all (hI : Hereditary I new given rewritten) (h : Step w w') (hw : w.All I) :
    w'.All I := by
  cases h with
  | insertMember chain function =>
    have h : Store.Effect (.prepend chain function) w.store _ :=
      Store.effect_insertMember rfl 0 function
    exact h.all hI nofun nofun nofun hw
  | append chain function =>
    have h : Store.Effect (.append chain function) w.store _ := Store.effect_append rfl function
    exact h.all hI nofun nofun nofun hw
  | removeMember chain function =>
    have h : Store.Effect (.removeMember chain function) w.store _ :=
      Store.effect_removeMember rfl function
    exact h.all hI nofun nofun nofun hw
  | assignVarying varying expression =>
    exact StageMain.all_assignVarying hI w.program.vertex hw varying expression
  | _ => exact hw

theorem Begun.all (hI : Hereditary I new given rewritten) (hnew : new w.store.fresh)
    (h : Begun w w') (hw : w.All I) : w'.All I :=
  h.induction hw
    (fun hook => (Store.effect_chain hook false []).all hI (fun _ => hnew) nofun nofun hw)
    fun hstep => hstep.all hI

end Workspace

/-- **Requests hand a hereditary property on**, and give no variable a value. -/
theorem Request.all_perform {I : ObjectId → Object → Prop} {new given rewritten : ObjectId → Prop}
    {w : Workspace} (hI : Hereditary I new given rewritten) (hnew : new w.store.fresh) (h : w.All I)
    (r : Request) : (r.perform w).All I := by
  by_cases hr : r = .link
  · -- linking does nothing to the store
    subst hr
    change (stateAfter (Workspace.onProgram (Program.link w.store.graph)) w).All I
    rw [Workspace.stateAfter_onProgram]
    exact h
  · exact (r.begun hr w).all hI hnew h

end ShaderLink
