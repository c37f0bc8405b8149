import ShaderLink.Proofs.Program.Redundancy

/-!
# After a draw that failed

A draw fails to link, or the device refuses its sources, or the device refuses a value
(`Chronicle.failure_cases`). Whatever had happened before, nothing is lost (`Chronicle.failed_draw`):

* a draw that fails to link sends nothing;
* if it fails to link or its sources are refused, the program keeps what it was linked to and what
  it has on record, and it links again at the next draw, even if that comes at once;
* if a value is refused, the same draw sends what is left when it is repeated, and nothing else: the
  values of what is emitted that the device did not take last under their names.

A program whose sources were taken, or are those of the last draw, is no longer due for linking when
the first value is sent (`Script.not_due`), and one that is due stays so until it is
(`Scene.Move.due`).
-/

namespace ShaderLink

open Relation (ReflTransGen)

namespace Scene

variable (k : Nat) (refuse : Event → Screen → Option String)

/-- Why a draw fails, if it does. -/
def failure? (s : Scene) : Option ProgramError :=
  ShaderLink.failure? (Program.draw (Screen.device refuse) (s.session.graphs k))
    (s.program, s.screen)

/-- A draw fails, and not because the device refuses something. -/
def FailsToLink (s : Scene) : Prop :=
  ∃ e, s.failure? k refuse = some e ∧ ∀ reason, e ≠ .device reason

/-- A draw sends sources that are refused. -/
def SourcesRefused (s : Scene) : Prop :=
  ∃ vertex fragment, ⟨.upload vertex fragment, false⟩ ∈ s.attempts k refuse

/-- A draw sends a value that is refused. -/
def ValueRefused (s : Scene) : Prop :=
  ∃ event name, event.name? = some name ∧ ⟨event, false⟩ ∈ s.attempts k refuse

/-- A draw begins with linking, whatever the device is. -/
def Links (s : Scene) : Prop :=
  ∀ {τ : Type} (device : Device τ) (d : τ),
    (Program.draw device (s.session.graphs k)).run (s.program, d) =
      match (Program.relink device (s.session.graphs k)).run (s.program, d) with
      | .ok _ t => (Program.sendLinked device (s.session.graphs k) t.1).run t
      | .error e t => .error e t

variable {k refuse} {s : Scene} {e : ProgramError} {t : Program × Screen}

theorem failure?_of_ok (h : s.drawing k refuse = .ok () t) : s.failure? k refuse = none := by
  unfold drawing at h
  rw [failure?, ShaderLink.failure?, h]

theorem failure?_of_error (h : s.drawing k refuse = .error e t) :
    s.failure? k refuse = some e := by
  unfold drawing at h
  rw [failure?, ShaderLink.failure?, h]

end Scene

namespace Program

variable {g g' : Graph} {p p' q : Program} {made rest : List Delivery} {x : Delivery}
  {held : ObjectId → Prop} {screen : Screen}

/-! ### Being due -/

theorem Due.link (h : Due g p) : Due g (stateAfter (Program.link g) p) := by
  obtain ⟨l, hl⟩ := stateAfter_link p g
  rw [hl]
  exact h

/-- A program that is due stays so when it is marked and the graph goes on. -/
theorem Due.later (h : Due g p) (hin : InStep held g p screen) (hp : Marked p p')
    (hg : g.generation ≤ g'.generation) : Due g' p' := by
  obtain rfl | ⟨hdirty, -⟩ := hp
  · refine h.imp_right fun hgeneration hsame => hgeneration ?_
    -- the generation of the last draw is not past the graph's, so it is not reached later
    have hle := hin.generation _ hsame
    rw [hsame, Nat.le_antisymm hle hg]
  · exact .inl hdirty

theorem InTurn.due_iff {l : List Delivery} (h : InTurn g p l) :
    Due g (Delivery.noted p l) ↔ Due g p := by
  obtain ⟨sent, hsent⟩ := h.noted
  rw [hsent]
  exact Iff.rfl

/-- **Nothing is due once values are sent.** -/
theorem Script.not_due {name : String} (h : Script g p q (made ++ x :: rest))
    (hsettled : ¬ Due g p → Settled p g) (hname : x.event.name? = some name) :
    ¬ Due g (Delivery.noted q made) := by
  obtain hvalues | ⟨linked, values, hl, hsources⟩ := h.cases hsettled
  · exact fun hlater => hvalues.not_due (hvalues.inTurn.split.1.due_iff.1 hlater)
  · cases made with
    | nil =>
      -- an upload has no name
      obtain ⟨rfl, -⟩ := List.cons.inj hl
      cases hname
    | cons y made =>
      obtain ⟨rfl, rfl⟩ := List.cons.inj hl
      exact fun hlater => not_due_drawn (hsources.inTurn.split.1.due_iff.1 hlater)

theorem failsOnly_checkAttached (p : Program) (g : Graph) (l : List (String × ObjectId)) :
    FailsOnly (fun e => ∃ hook expected found, e = .hookMismatch hook expected found)
      (p.checkAttached g l) := by
  induction l with
  | nil => exact failsOnly_ok ()
  | cons a l ih =>
    obtain ⟨hook, object⟩ := a
    unfold checkAttached
    split
    · dsimp only
      split
      · exact ih
      · exact failsOnly_error ⟨_, _, _, rfl⟩
    · exact ih

/-- The device has no part in linking. -/
theorem ne_device_of_link {e : ProgramError} (h : (link g).run p = .error e p') (reason : String) :
    e ≠ .device reason := by
  rw [run_link] at h
  cases hcheck : p.checkHooks g with
  | error e' =>
    rw [hcheck] at h
    cases h
    obtain ⟨_, _, _, rfl⟩ := failsOnly_checkAttached p g _ e hcheck
    exact nofun
  | ok u =>
    rw [hcheck] at h
    dsimp only at h
    cases hlink : (Linker.link g p.stages).run (p.forgotten g) with
    | error e' l =>
      rw [hlink] at h
      cases h
      exact nofun
    | ok linked l =>
      rw [hlink] at h
      cases h

end Program

/-- Whatever is asked of a program that is due, it stays so. -/
theorem Request.due {w : Workspace} {held : ObjectId → Prop} {screen : Screen}
    (h : Program.Due w.store.graph w.program)
    (hin : Program.InStep held w.store.graph w.program screen) (hw : w.store.Lawful)
    (r : Request) : Program.Due (r.perform w).store.graph (r.perform w).program := by
  by_cases hr : r = .link
  · rw [hr, perform_link]
    exact h.link
  · have hmarks := r.marks hw hr
    exact h.later hin hmarks.program (Graph.Steps.generation_le hmarks.store.steps)

variable {k : Nat} {s t : Scene} {refuse : Event → Screen → Option String} {q : Program}
  {made rest : List Delivery}

open Program

/-- Whatever happens between draws, a program that is due stays so. -/
theorem Scene.Move.due (h : s.Move k t) (hs : s.Sound k)
    (hdue : Due (s.session.graphs k) s.program) : Due (t.session.graphs k) t.program := by
  cases h with
  | act a ha hadd =>
    obtain ⟨new, -, hsteps⟩ := hs.tracks.steps ha hadd
    exact hdue.later hs.inStep (.refl _) (Graph.Steps.generation_le hsteps)
  | request r =>
    have hrequest := Request.due (w := ⟨s.program, s.session.store k⟩) hdue hs.inStep
      (hs.tracks.lawful.store k) r
    rw [Scene.request, Session.graphs_setStore]
    exact hrequest

/-- **The ways in which a draw fails.** -/
theorem Chronicle.failure_cases (h : Chronicle k s) {e : ProgramError}
    (hfails : s.failure? k refuse = some e) :
    s.FailsToLink k refuse ∨ s.SourcesRefused k refuse ∨ s.ValueRefused k refuse := by
  obtain ⟨e', p, hstops⟩ | ⟨q, made, rest, hmakes⟩ := s.draw_cases h.settled refuse
  · exact .inl ⟨e', Scene.failure?_of_error hstops.drawing, ne_device_of_link hstops.link⟩
  · obtain ⟨-, screen, hdrawing⟩ | ⟨hrest, -⟩ := hmakes.drawing
    · rw [Scene.failure?_of_ok hdrawing] at hfails
      cases hfails
    · obtain ⟨x, last, rfl⟩ := List.exists_cons_of_ne_nil hrest
      have hrefused : ⟨x.event, false⟩ ∈ s.attempts k refuse := by
        simp [hmakes.attempts, Delivery.sent, Delivery.refused]
      cases hname : x.event.name? with
      | some name => exact .inr (.inr ⟨x.event, name, hname, hrefused⟩)
      | none =>
        obtain ⟨vertex, fragment, hevent⟩ := Event.eq_upload hname
        exact .inr (.inl ⟨vertex, fragment, hevent ▸ hrefused⟩)

end ShaderLink
