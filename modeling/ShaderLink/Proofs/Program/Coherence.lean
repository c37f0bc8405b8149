import ShaderLink.Proofs.Program.InStep

/-!
# Drawing keeps the device up to date

Between draws anything can happen to the objects and to the program, and a device may refuse
anything (`Program.Run`). After a draw that succeeds, the screen nevertheless holds the sources that
linking the program yields and the current value of every variable that is emitted
(`Program.draw_coherent`): programs stay in step with their screens (`Run.sound`), and a draw that
succeeds leaves the program settled and every value on record (`InStep.draw`).
-/

namespace ShaderLink

namespace Program

variable {g : Graph} {p p' : Program} {screen screen' : Screen} {held : ObjectId → Prop}
  {refuse : Event → Screen → Option String} {σ : Session} {k : Nat} {τ : Type}

/-! ### Linking for a draw -/

/-- The program once a draw has linked it. -/
def drawn (p : Program) (g : Graph) (linked : Linked) : Program :=
  { p with linked := some linked, dirty := false, generation := some g.generation }

/-- Sources are uploaded if they are not those of the last draw. -/
theorem run_relink (device : Device τ) (g : Graph) (p : Program) (d : τ) :
    (relink device g).run (p, d) = match (link g).run p with
      | .error e p' => .error e (p', d)
      | .ok linked p' =>
        if p'.linked.map (·.sources) = some linked.sources then
          .ok () (p'.drawn g linked, d)
        else match device (.upload linked.uploaded.1 linked.uploaded.2) d with
          | .ok d => .ok () (({ p' with sent := ∅ } : Program).drawn g linked, d)
          | .error reason => .error (.device reason) (p', d) := by
  unfold relink
  rw [EStateM.run_bind, EStateM.run_get]
  dsimp only
  cases (link g).run p with
  | error e p' => rfl
  | ok linked p' =>
    dsimp only
    by_cases hsame : p'.linked.map (·.sources) = some linked.sources
    · rw [if_pos hsame]
      simp only [EStateM.run_bind, EStateM.run_set, hsame, if_true]
      rfl
    · rw [if_neg hsame]
      simp only [EStateM.run_bind, EStateM.run_set, hsame, if_false, run_send, Linked.uploaded]
      cases device (.upload (linked.sources.vertex.getD "") (linked.sources.fragment.getD ""))
        d <;> rfl

/-- A program that has been linked for a draw is in step if the screen holds the sources. -/
theorem InStep.drawn {linked : Linked} (h : InStep held g p' screen)
    (hlink : (Program.link g).run p = .ok linked p')
    (hsources : screen.sources = some linked.uploaded) :
    InStep held g (p'.drawn g linked) screen where
  uploaded := fun _ hl => by
    obtain rfl := Option.some.inj hl
    exact hsources
  sent := h.sent
  generation := fun n hn => by
    obtain rfl := Option.some.inj hn
    exact Nat.le_refl _
  settled := fun _ _ => settled_of_link hlink false (some g.generation)

/-- A device that takes the sources has no values left, and the program has none on record. -/
theorem inStep_drawnAnew {linked : Linked} (hlink : (Program.link g).run p = .ok linked p') :
    InStep held g (({ p' with sent := ∅ } : Program).drawn g linked)
      (screen.accept (.upload linked.uploaded.1 linked.uploaded.2)) where
  uploaded := fun _ hl => by
    obtain rfl := Option.some.inj hl
    rfl
  sent := fun name id state hs => by
    change (∅ : Std.ExtTreeMap String (ObjectId × Nat))[name]? = some (id, state) at hs
    simp at hs
  generation := fun n hn => by
    obtain rfl := Option.some.inj hn
    exact Nat.le_refl _
  settled := fun _ _ => (settled_of_link hlink false (some g.generation)).withSent ∅

/-- **Linking for a draw** keeps the program in step, and settles it if it succeeds. -/
theorem InStep.relink (h : InStep held g p screen) (refuse : Event → Screen → Option String) :
    ∃ p' screen', InStep held g p' screen' ∧
    ((relink (Screen.device refuse) g).run (p, screen) = .ok () (p', screen') ∧ Settled p' g ∨
      ∃ e, (relink (Screen.device refuse) g).run (p, screen) = .error e (p', screen')) := by
  have hrun := run_relink (Screen.device refuse) g p screen
  have h' := h.link
  cases hlink : (Program.link g).run p with
  | error e p' =>
    rw [hlink] at hrun
    rw [stateAfter_eq_of_error hlink] at h'
    exact ⟨p', screen, h', .inr ⟨e, hrun⟩⟩
  | ok linked p' =>
    rw [hlink] at hrun
    rw [stateAfter_eq_of_ok hlink] at h'
    dsimp only at hrun
    by_cases hsame : p'.linked.map (·.sources) = some linked.sources
    · -- the screen holds the sources of the last draw, which are the same
      rw [if_pos hsame] at hrun
      obtain ⟨old, hold, hsources⟩ := Option.map_eq_some_iff.1 hsame
      have hscreen : screen.sources = some linked.uploaded := by
        rw [h'.uploaded old hold, Linked.uploaded, Linked.uploaded, hsources]
      exact ⟨_, _, h'.drawn hlink hscreen,
        .inl ⟨hrun, settled_of_link hlink false (some g.generation)⟩⟩
    · rw [if_neg hsame] at hrun
      cases hdevice : Screen.device refuse (.upload linked.uploaded.1 linked.uploaded.2) screen with
      | error reason =>
        -- the program has been linked, but nothing is noted of it
        rw [hdevice] at hrun
        exact ⟨p', screen, h', .inr ⟨_, hrun⟩⟩
      | ok screen' =>
        rw [hdevice] at hrun
        obtain rfl := Screen.eq_accept_of_device hdevice
        exact ⟨_, _, inStep_drawnAnew hlink,
          .inl ⟨hrun, (settled_of_link hlink false (some g.generation)).withSent ∅⟩⟩

/-! ### Draws -/

/-- What a draw does once the program is linked. -/
def sendLinked (device : Device τ) (g : Graph) (p : Program) : DrawM τ Unit :=
  match p.linked with
  | some linked => linked.objects.forM (sendValue device g)
  | none => pure ()

theorem run_draw (device : Device τ) (g : Graph) (p : Program) (d : τ) :
    (draw device g).run (p, d) =
      if p.dirty ∨ p.generation ≠ some g.generation then
        match (relink device g).run (p, d) with
        | .ok _ t => (sendLinked device g t.1).run t
        | .error e t => .error e t
      else (sendLinked device g p).run (p, d) := by
  unfold draw
  rw [EStateM.run_bind, EStateM.run_get]
  dsimp only
  by_cases hdue : p.dirty ∨ p.generation ≠ some g.generation
  · rw [if_pos hdue, if_pos hdue, EStateM.run_bind]
    cases (relink device g).run (p, d) with
    | ok u t =>
      -- the objects to send are read from the program as linking leaves it
      dsimp only
      rw [EStateM.run_bind, EStateM.run_get, sendLinked]
      dsimp only
      cases t.1.linked <;> rfl
    | error e t => rfl
  · rw [if_neg hdue, if_neg hdue, EStateM.run_bind, EStateM.run_get, sendLinked]
    dsimp only
    cases p.linked <;> rfl

/-- **Sending all values** of a settled program puts all of them on record. -/
theorem InStep.sendLinked (h : InStep held g p screen) (hheld : ∀ x ∈ g.ids, held x)
    (refuse : Event → Screen → Option String) (hsettled : Settled p g) :
    ∃ p' screen', InStep held g p' screen' ∧
      ((sendLinked (Screen.device refuse) g p).run (p, screen) = .ok () (p', screen') ∧
          Settled p' g ∧ (∀ linked, p'.linked = some linked → ∀ x ∈ linked.objects, IsSent g p' x) ∨
        ∃ e, (sendLinked (Screen.device refuse) g p).run (p, screen) = .error e (p', screen')) := by
  have ⟨linked, hlinked, _, _, hlink⟩ := hsettled
  obtain ⟨sent, screen', h', hrun⟩ := h.sendValues hheld refuse
    (l := linked.objects) (fun _ hx => hx) (Linker.names_of_link hlink).2
  have hall : Program.sendLinked (Screen.device refuse) g p =
      linked.objects.forM (Program.sendValue (Screen.device refuse) g) := by
    rw [Program.sendLinked, hlinked]
  rw [hall]
  obtain ⟨hok, hsent⟩ | ⟨reason, herror⟩ := hrun
  · refine ⟨_, screen', h', .inl ⟨hok, hsettled.withSent sent, fun linked' hl x hx => ?_⟩⟩
    obtain rfl : linked = linked' := Option.some.inj (hlinked.symm.trans hl)
    exact hsent x hx (.inr hx)
  · exact ⟨_, screen', h', .inr ⟨_, herror⟩⟩

/-- **A draw** keeps the program in step. If it succeeds, the program is settled and has the values
of all that is emitted on record. -/
theorem InStep.draw (h : InStep held g p screen) (hheld : ∀ x ∈ g.ids, held x)
    (refuse : Event → Screen → Option String) :
    ∃ p' screen', InStep held g p' screen' ∧
      ((draw (Screen.device refuse) g).run (p, screen) = .ok () (p', screen') ∧ Settled p' g ∧
          (∀ linked, p'.linked = some linked → ∀ x ∈ linked.objects, IsSent g p' x) ∨
        ∃ e, (draw (Screen.device refuse) g).run (p, screen) = .error e (p', screen')) := by
  rw [run_draw]
  by_cases hdue : p.dirty ∨ p.generation ≠ some g.generation
  · rw [if_pos hdue]
    obtain ⟨p₁, screen₁, h₁, ⟨hrun, hsettled⟩ | ⟨e, hrun⟩⟩ := h.relink refuse
    · rw [hrun]
      exact h₁.sendLinked hheld refuse hsettled
    · rw [hrun]
      exact ⟨p₁, screen₁, h₁, .inr ⟨e, rfl⟩⟩
  · -- neither marked nor in another graph, so it is settled already
    rw [if_neg hdue]
    rw [not_or, Bool.not_eq_true, not_not] at hdue
    exact h.sendLinked hheld refuse (h.settled hdue.1 hdue.2)

/-! ### Runs -/

/-- **A run of one program over one graph of a session, with one device.** `held` are the objects
that the graph has held so far; none of them is added again. The device may refuse whatever it
likes, each time it draws. -/
inductive Run (k : Nat) : Session → (ObjectId → Prop) → Program → Screen → Prop where
  | start {settings : Settings} {vertex fragment : String} {p : Program} (screen : Screen)
      (hp : ofCode settings vertex fragment = .ok p) : Run k .empty (fun _ => False) p screen
  | act {σ : Session} {held : ObjectId → Prop} {p : Program} {screen : Screen}
      (h : Run k σ held p screen) (a : Session.Action) (ha : a.Possible σ)
      (hadd : ∀ x, a.Adds k x → ¬ held x) :
      Run k (a.perform σ) (fun x => held x ∨ x ∈ ((a.perform σ).graphs k).ids) p screen
  | request {σ : Session} {held : ObjectId → Prop} {p : Program} {screen : Screen}
      (h : Run k σ held p screen) (r : Request) :
      Run k (σ.setStore k (r.perform ⟨p, σ.store k⟩).store)
        (fun x => held x ∨ x ∈ (r.perform ⟨p, σ.store k⟩).store.graph.ids)
        (r.perform ⟨p, σ.store k⟩).program screen
  | draw {σ : Session} {held : ObjectId → Prop} {p : Program} {screen : Screen}
      (h : Run k σ held p screen) (refuse : Event → Screen → Option String) :
      Run k σ held (stateAfter (draw (Screen.device refuse) (σ.graphs k)) (p, screen)).1
        (stateAfter (draw (Screen.device refuse) (σ.graphs k)) (p, screen)).2

/-- What a run keeps. -/
structure Sound (k : Nat) (σ : Session) (held : ObjectId → Prop) (p : Program) (screen : Screen) :
    Prop where
  tracks : σ.Tracks k held
  inStep : InStep held (σ.graphs k) p screen

/-- **A program is made** of the main codes of its stages, with the hooks that both declare. -/
theorem of_ofCode {settings : Settings} {vertex fragment : String}
    (hp : ofCode settings vertex fragment = .ok p) :
    ∃ vertexMain fragmentMain vertexHooks hooks,
      addHooks .vertex ∅ (Prototype.findAll vertex.toList) = .ok vertexHooks ∧
      addHooks .fragment vertexHooks (Prototype.findAll fragment.toList) = .ok hooks ∧
      p = { vertex := vertexMain, fragment := fragmentMain, hooks, attached := ∅, detached := []
            linker := .new settings, dirty := true, generation := none, linked := none
            sent := ∅ } := by
  unfold ofCode at hp
  obtain ⟨vertexMain, -, hp⟩ := Except.bind_eq_ok_iff.1 hp
  obtain ⟨vertexHooks, hvertex, hp⟩ := Except.bind_eq_ok_iff.1 hp
  obtain ⟨fragmentMain, -, hp⟩ := Except.bind_eq_ok_iff.1 hp
  obtain ⟨hooks, hfragment, hp⟩ := Except.bind_eq_ok_iff.1 hp
  exact ⟨vertexMain, fragmentMain, vertexHooks, hooks, hvertex, hfragment, (Except.ok.inj hp).symm⟩

theorem inStep_start {settings : Settings} {vertex fragment : String}
    (hp : ofCode settings vertex fragment = .ok p) : InStep held g p screen := by
  obtain ⟨_, _, _, _, -, -, rfl⟩ := of_ofCode hp
  exact { uploaded := nofun, sent := by simp, generation := nofun, settled := nofun }

theorem Sound.act (h : Sound k σ held p screen) {a : Session.Action} (ha : a.Possible σ)
    (hadd : ∀ x, a.Adds k x → ¬ held x) :
    Sound k (a.perform σ) (fun x => held x ∨ x ∈ ((a.perform σ).graphs k).ids) p screen := by
  obtain ⟨new, hnew, hsteps⟩ := h.tracks.steps ha hadd
  exact ⟨h.tracks.act ha, h.inStep.steps hsteps hnew fun _ hx => .inl hx⟩

theorem Sound.request (h : Sound k σ held p screen) (r : Request) :
    Sound k (σ.setStore k (r.perform ⟨p, σ.store k⟩).store)
      (fun x => held x ∨ x ∈ (r.perform ⟨p, σ.store k⟩).store.graph.ids)
      (r.perform ⟨p, σ.store k⟩).program screen := by
  -- linking does not mark the program, but it leaves the store alone
  by_cases hr : r = .link
  · subst hr
    have hlink : Request.link.perform ⟨p, σ.store k⟩ =
        ⟨stateAfter (link (σ.graphs k)) p, σ.store k⟩ := Workspace.stateAfter_onProgram ..
    rw [hlink]
    refine ⟨h.tracks.setStore (show Store.Evolves False _ _ from .refl _), ?_⟩
    rw [Session.graphs_setStore]
    exact h.inStep.link.mono fun _ hx => .inl hx
  · have hmarks := r.marks (w := ⟨p, σ.store k⟩) (h.tracks.lawful.store k) hr
    refine ⟨h.tracks.setStore hmarks.store, ?_⟩
    rw [Session.graphs_setStore]
    exact (h.inStep.marked hmarks.program).steps hmarks.store.steps
      (fun x hx => h.tracks.not_held hx.1) fun _ hx => .inl hx

theorem Sound.draw (h : Sound k σ held p screen) (refuse : Event → Screen → Option String) :
    Sound k σ held (stateAfter (draw (Screen.device refuse) (σ.graphs k)) (p, screen)).1
      (stateAfter (draw (Screen.device refuse) (σ.graphs k)) (p, screen)).2 := by
  obtain ⟨p', screen', h', ⟨hrun, -⟩ | ⟨e, hrun⟩⟩ :=
    h.inStep.draw h.tracks.complete refuse
  · rw [stateAfter_eq_of_ok hrun]
    exact ⟨h.tracks, h'⟩
  · rw [stateAfter_eq_of_error hrun]
    exact ⟨h.tracks, h'⟩

/-- **The program of a run is in step.** -/
theorem Run.sound (h : Run k σ held p screen) : Sound k σ held p screen := by
  induction h with
  | start screen hp => exact ⟨Session.tracks_empty k, inStep_start hp⟩
  | act _ a ha hadd ih => exact ih.act ha hadd
  | request _ r ih => exact ih.request r
  | draw _ refuse ih => exact ih.draw refuse

/-- **A screen that is up to date** holds the sources that linking the program answers, and for
every emitted uniform and attribute that has a value this value, under the name that the linker
gives it. -/
def UpToDate (g : Graph) (p : Program) (screen : Screen) : Prop :=
  ∃ vertex fragment linked q, (link g).run p = .ok linked q ∧
    linked.sources = ⟨some vertex, some fragment⟩ ∧ screen.sources = some (vertex, fragment) ∧
    ∀ id ∈ linked.objects, ∀ v value, g.find? id = some (.var v) →
      (v.qualifier = some .uniform ∨ v.qualifier = some .vertexAttribute) → v.value = some value →
        ∃ name, p.linker.names[id]? = some name ∧ screen.values[name]? = some value

/-- **A draw that succeeds brings the device up to date**, whatever happened before. -/
theorem draw_coherent (h : Run k σ held p screen)
    (hdraw : (draw (Screen.device refuse) (σ.graphs k)).run (p, screen) = .ok () (p', screen')) :
    UpToDate (σ.graphs k) p' screen' := by
  obtain ⟨hdrawn, screen₁, h', ⟨hrun, hsettled, hsent⟩ | ⟨e, hrun⟩⟩ :=
    h.sound.inStep.draw h.sound.tracks.complete refuse
  · rw [hrun] at hdraw
    cases hdraw
    -- the draw leaves the program settled, so linking it answers what was uploaded
    obtain ⟨linked, hlinked, hagain⟩ := hsettled.link
    have ⟨linked', hlinked', _, _, hlink⟩ := hsettled
    obtain rfl : linked = linked' := Option.some.inj (hlinked.symm.trans hlinked')
    obtain ⟨vertex, fragment, hsources⟩ := Linker.sources_of_link hlink
    refine ⟨vertex, fragment, linked, _, hagain, hsources, ?_,
      fun id hid v value hv hq hvalue => ?_⟩
    · rw [h'.uploaded linked hlinked, Linked.uploaded, hsources]
      rfl
    · -- its value is on record, and what is on record with the state it has is held
      obtain ⟨name, hname⟩ := (Linker.names_of_link hlink).1 id hid
      obtain ⟨event, hevent⟩ : ∃ event, valueEvent? v name = some event := by
        unfold valueEvent?
        obtain hq | hq := hq <;> rw [hq, hvalue] <;> exact ⟨_, rfl⟩
      have hrecord := hsent linked hlinked id hid v name event hv hname hevent
      refine ⟨name, hname, ?_⟩
      rw [((h'.sent name id v.state hrecord).2 v hv).2 rfl, hvalue]
  · rw [hrun] at hdraw
    cases hdraw

/-- A session with a function that returns a number. -/
def levelSession : Session :=
  [Operation.unassigned "level", .setValue ⟨1⟩ (.int 3),
    .function "int height() { return $level; }", .bind ⟨2⟩ "level" ⟨1⟩].foldl
    (fun σ op => (Session.Action.edit 0 op).perform σ) .empty

/-- A program with a hook, and the function attached to it. -/
def levelWorkspace (p : Program) : Workspace :=
  (Request.setHook "height" ⟨2⟩).perform ⟨p, levelSession.store 0⟩

/-- What is left when the device takes the sources and refuses the number. -/
def levelRefused (p : Program) : Program × Screen :=
  stateAfter
    (draw (Screen.device fun event _ => if event matches .upload .. then none else some "busy")
      (levelWorkspace p).store.graph) ((levelWorkspace p).program, ⟨none, ∅⟩)

/-- The session in which the number is another one. -/
def raisedSession (p : Program) : Session :=
  (Session.Action.edit 0 (.setValue ⟨1⟩ (.int 5))).perform
    (levelSession.setStore 0 (levelWorkspace p).store)

/-- What the draw after that does. -/
def levelDraw (p : Program) : EStateM.Result ProgramError (Program × Screen) Unit :=
  (draw (Screen.device fun _ _ => none) ((raisedSession p).graphs 0)).run (levelRefused p)

/-- The draw after a refused one sends the number that the variable has by then. -/
theorem draw_coherent_level : ∃ p held q screen,
    ofCode .default "void main() {}" "int height();\nvoid main() { height(); }" = .ok p ∧
      Run 0 (raisedSession p) held (levelRefused p).1 (levelRefused p).2 ∧
      levelDraw p = .ok () (q, screen) ∧ screen.values["level"]? = some (.int 5) ∧
      UpToDate ((raisedSession p).graphs 0) q screen := by
  have hvalue : ((ofCode .default "void main() {}"
      "int height();\nvoid main() { height(); }").toOption.bind fun p => match levelDraw p with
        | .ok _ (_, screen) => screen.values["level"]?
        | .error _ _ => none) = some (.int 5) := by
    decide +kernel
  cases hp : ofCode .default "void main() {}" "int height();\nvoid main() { height(); }" with
  | error e =>
    rw [hp] at hvalue
    cases hvalue
  | ok p =>
    rw [hp] at hvalue
    -- evaluation shows what the last draw sends; the rest is that all of it is a run
    change (match levelDraw p with
      | .ok _ (_, screen) => screen.values["level"]?
      | .error _ _ => none) = some (.int 5) at hvalue
    obtain ⟨held, hrun⟩ : ∃ held, Run 0 (raisedSession p) held (levelRefused p).1
        (levelRefused p).2 := by
      have h₁ := (Run.start (k := 0) ⟨none, ∅⟩ hp).act (.edit 0 (.unassigned "level")) trivial
        fun x hx => absurd hx Session.Action.not_adds_edit
      have h₂ := h₁.act (.edit 0 (.setValue ⟨1⟩ (.int 3))) trivial
        fun x hx => absurd hx Session.Action.not_adds_edit
      have h₃ := h₂.act (.edit 0 (.function "int height() { return $level; }")) trivial
        fun x hx => absurd hx Session.Action.not_adds_edit
      have h₄ := h₃.act (.edit 0 (.bind ⟨2⟩ "level" ⟨1⟩)) trivial
        fun x hx => absurd hx Session.Action.not_adds_edit
      have h₅ := (h₄.request (.setHook "height" ⟨2⟩)).draw
        fun event _ => if event matches .upload .. then none else some "busy"
      have h₆ := h₅.act (.edit 0 (.setValue ⟨1⟩ (.int 5))) trivial
        fun x hx => absurd hx Session.Action.not_adds_edit
      exact ⟨_, h₆⟩
    cases hdraw : levelDraw p with
    | error e t =>
      rw [hdraw] at hvalue
      cases hvalue
    | ok u t =>
      obtain ⟨q, screen⟩ := t
      rw [hdraw] at hvalue
      exact ⟨p, held, q, screen, rfl, hrun, hdraw, hvalue, draw_coherent hrun hdraw⟩

end Program

end ShaderLink
