import ShaderLink.Program.Draw
import ShaderLink.Proofs.Program.Settled

/-!
# Programs in step with a screen

A **screen** is what a device holds: the sources that it took last and a value for each name, which
taking sources empties (`Screen`). It may refuse any event. What a draw relies on is that the
program is **in step** with the screen (`Program.InStep`):

* the screen holds the sources of the last draw that linked;
* a state that was recorded as sent is no later than the variable's, and if it is the variable's
  state then the screen has the variable's value;
* a program that is not marked and whose graph has not changed is settled.

Edits, requests and the sending of values keep a program in step.
-/

namespace ShaderLink

/-- What a device holds. -/
structure Screen where
  /-- The sources of both stages, if it has taken any. -/
  sources : Option (String × String)
  values : Std.ExtTreeMap String Value

namespace Screen

/-- The screen once an event is taken. -/
def accept (screen : Screen) : Event → Screen
  | .upload vertex fragment => { sources := some (vertex, fragment), values := ∅ }
  | .uniform name value | .vertexAttribute name value =>
    { screen with values := screen.values.insert name value }

/-- The device that refuses some events, with a reason, and takes the others. -/
def device (refuse : Event → Screen → Option String) : Device Screen := fun event screen =>
  match refuse event screen with
  | some reason => .error reason
  | none => .ok (screen.accept event)

variable {refuse : Event → Screen → Option String} {event : Event} {screen screen' : Screen}

theorem eq_accept_of_device (h : device refuse event screen = .ok screen') :
    screen' = screen.accept event := by
  unfold device at h
  split at h
  · cases h
  · exact (Except.ok.inj h).symm

/-- A value that is taken is held under its name, and everything else stays. -/
theorem accept_valueEvent (screen : Screen) {v : Variable} {name : String}
    (h : Program.valueEvent? v name = some event) :
    ∃ value, v.value = some value ∧
      screen.accept event = { screen with values := screen.values.insert name value } := by
  unfold Program.valueEvent? at h
  split at h
  · next value _ hvalue =>
    cases h
    exact ⟨value, hvalue, rfl⟩
  · next value _ hvalue =>
    cases h
    exact ⟨value, hvalue, rfl⟩
  · cases h

end Screen

/-- The sources of both stages, as they are uploaded. -/
def Linked.uploaded (linked : Linked) : String × String :=
  (linked.sources.vertex.getD "", linked.sources.fragment.getD "")

namespace Program

variable {g g' : Graph} {p p' : Program} {screen screen' : Screen} {held held' : ObjectId → Prop}
  {id x : ObjectId} {refuse : Event → Screen → Option String} {τ : Type}

/-- **A program in step with a screen.** -/
structure InStep (held : ObjectId → Prop) (g : Graph) (p : Program) (screen : Screen) : Prop where
  uploaded : ∀ linked, p.linked = some linked → screen.sources = some linked.uploaded
  sent : ∀ (name : String) id state, p.sent[name]? = some (id, state) → held id ∧
    ∀ v, g.find? id = some (.var v) →
      state ≤ v.state ∧ (v.state = state → screen.values[name]? = v.value)
  generation : ∀ n, p.generation = some n → n ≤ g.generation
  settled : p.dirty = false → p.generation = some g.generation → Settled p g

/-! ### Between draws -/

/-- **Edits keep a program in step** as long as nothing that was held is new. -/
theorem InStep.steps {new : ObjectId → Prop} {flip : Prop} (h : InStep held g p screen)
    (hsteps : Graph.Steps new flip g g') (hnew : ∀ x, new x → ¬ held x)
    (hmore : ∀ x, held x → held' x) : InStep held' g' p screen where
  uploaded := h.uploaded
  sent := fun name id state hsent => by
    obtain ⟨hid, hvalue⟩ := h.sent name id state hsent
    refine ⟨hmore id hid, fun v' hv' => ?_⟩
    -- the variable on record is the one that was there before
    have hold : ¬ new id := fun hn => hnew id hn hid
    obtain ⟨o, ho, hiff⟩ := Graph.Steps.isVariable hsteps hold hv'
    obtain ⟨v, rfl⟩ := hiff.2 ⟨v', rfl⟩
    obtain ⟨hle, heq⟩ := Graph.Steps.variable hsteps hold ho hv'
    obtain ⟨hstate, hscreen⟩ := hvalue v ho
    refine ⟨Nat.le_trans hstate hle, fun hv => ?_⟩
    -- the variable has taken no value since, so it has not taken one in these steps
    rw [heq (by omega)]
    exact hscreen (by omega)
  generation := fun n hn => Nat.le_trans (h.generation n hn) (Graph.Steps.generation_le hsteps)
  settled := fun hdirty hgen => by
    -- the program was drawn in a graph of this generation, which is the graph before the steps
    have hle := h.generation _ hgen
    have hge := Graph.Steps.generation_le hsteps
    obtain rfl := Graph.Steps.eq_of_generation hsteps (by omega)
    exact h.settled hdirty hgen

theorem InStep.mono (h : InStep held g p screen) (hmore : ∀ x, held x → held' x) :
    InStep held' g p screen :=
  { h with sent := fun name id state hsent =>
      ⟨hmore id (h.sent name id state hsent).1, (h.sent name id state hsent).2⟩ }

/-- Marking a program keeps it in step. -/
theorem InStep.marked (h : InStep held g p screen) (hmarked : Marked p p') :
    InStep held g p' screen := by
  obtain rfl | ⟨hdirty, hlinked, hgeneration, hsent⟩ := hmarked
  · exact h
  · exact { uploaded := fun linked hl => h.uploaded linked (hlinked ▸ hl)
            sent := fun name id state hs => h.sent name id state (hsent ▸ hs)
            generation := fun n hn => h.generation n (hgeneration ▸ hn)
            settled := fun hclean => by
              rw [hdirty] at hclean
              cases hclean }

/-- Linking without drawing keeps a program in step. -/
theorem InStep.link (h : InStep held g p screen) :
    InStep held g (stateAfter (Program.link g) p) screen := by
  obtain ⟨l, hl⟩ := stateAfter_link p g
  -- a settled program is linked to what it was linked to, so it stays settled
  have hsettled := fun hdirty hgen => (h.settled hdirty hgen).stateAfter_link
  rw [hl] at hsettled ⊢
  exact { uploaded := h.uploaded, sent := h.sent, generation := h.generation, settled := hsettled }

/-! ### Sending values -/

/-- The value of an object is on record as sent, if it has one to send. -/
def IsSent (g : Graph) (p : Program) (id : ObjectId) : Prop :=
  ∀ v name event, g.find? id = some (.var v) → p.linker.names[id]? = some name →
    valueEvent? v name = some event → p.sent[name]? = some (id, v.state)

theorem run_send (device : Device τ) (event : Event) (p : Program) (d : τ) :
    (send device event).run (p, d) = match device event d with
      | .ok d => .ok () (p, d)
      | .error reason => .error (.device reason) (p, d) := by
  unfold send
  rw [EStateM.run_bind, EStateM.run_get]
  dsimp only
  cases device event d <;> rfl

/-- An object whose value is not on record has one to send. -/
theorem exists_of_not_isSent (h : ¬ IsSent g p id) : ∃ v name event, g.find? id = some (.var v) ∧
    p.linker.names[id]? = some name ∧ valueEvent? v name = some event ∧
      p.sent[name]? ≠ some (id, v.state) := by
  by_contra hnone
  refine h fun v name event hv hname hevent => ?_
  by_contra hne
  exact hnone ⟨v, name, event, hv, hname, hevent, hne⟩

/-- A value that is on record is not sent again. -/
theorem run_sendValue_of_isSent (h : IsSent g p id) (device : Device τ) (d : τ) :
    (sendValue device g id).run (p, d) = .ok () (p, d) := by
  unfold sendValue
  rw [EStateM.run_bind, EStateM.run_get]
  dsimp only
  split
  · next v name hv hname =>
    split
    · next event hevent =>
      rw [if_pos (h v name event hv hname hevent)]
      rfl
    · rfl
  · rfl

/-- Any other value is sent, and recorded if the device takes it. -/
theorem run_sendValue {v : Variable} {name : String} {event : Event}
    (hv : g.find? id = some (.var v)) (hname : p.linker.names[id]? = some name)
    (hevent : valueEvent? v name = some event) (hsent : p.sent[name]? ≠ some (id, v.state))
    (device : Device τ) (d : τ) :
    (sendValue device g id).run (p, d) = match device event d with
      | .ok d => .ok () ({ p with sent := p.sent.insert name (id, v.state) }, d)
      | .error reason => .error (.device reason) (p, d) := by
  simp only [sendValue, EStateM.run_bind, EStateM.run_get, hv, hname, hevent, hsent, if_false,
    run_send]
  cases device event d <;> rfl

/-- Recording a value keeps what is on record under other names. -/
theorem IsSent.insert {name : String} {state : Nat} (h : IsSent g p x)
    (hx : p.linker.names[x]? ≠ some name) :
    IsSent g { p with sent := p.sent.insert name (id, state) } x := by
  intro v n event hv hn hevent
  have hne : name ≠ n := fun heq => hx (heq ▸ hn)
  change (p.sent.insert name (id, state))[n]? = _
  simpa [Std.ExtTreeMap.getElem?_insert, hne] using h v n event hv hn hevent

/-- A value that the device takes is recorded with the state that the variable has. -/
theorem InStep.record (h : InStep held g p screen) {v : Variable} {value : Value} (hid : held id)
    (hv : g.find? id = some (.var v)) (hvalue : v.value = some value) (name : String) :
    InStep held g { p with sent := p.sent.insert name (id, v.state) }
      { screen with values := screen.values.insert name value } where
  uploaded := h.uploaded
  sent := fun n x state hs => by
    change (p.sent.insert name (id, v.state))[n]? = _ at hs
    change held x ∧ ∀ w : Variable, _ → state ≤ w.state ∧
      (w.state = state → (screen.values.insert name value)[n]? = w.value)
    rw [Std.ExtTreeMap.getElem?_insert] at hs ⊢
    split at hs
    · next heq =>
      cases hs
      refine ⟨hid, fun w hw => ?_⟩
      rw [hv] at hw
      cases hw
      exact ⟨Nat.le_refl _, fun _ => by rw [if_pos heq, hvalue]⟩
    · next hne =>
      -- what is on record under another name is held under that name
      rw [if_neg hne]
      exact h.sent n x state hs
  generation := h.generation
  settled := fun hdirty hgen => (h.settled hdirty hgen).withSent _

/-- **Sending a value** keeps the program in step, whether the device takes it or not. If it does,
the value is on record, with all values that were under other names. -/
theorem InStep.sendValue (h : InStep held g p screen) (hheld : ∀ x ∈ g.ids, held x)
    (refuse : Event → Screen → Option String) (id : ObjectId) :
    ∃ sent screen', InStep held g { p with sent } screen' ∧
      ((sendValue (Screen.device refuse) g id).run (p, screen) = .ok () ({ p with sent }, screen') ∧
          IsSent g { p with sent } id ∧
          (∀ x, (p.linker.names[x]? = p.linker.names[id]? → x = id) → IsSent g p x →
            IsSent g { p with sent } x) ∨
        ∃ reason, (sendValue (Screen.device refuse) g id).run (p, screen) =
          .error (.device reason) ({ p with sent }, screen')) := by
  by_cases hrecord : IsSent g p id
  · have hrun := run_sendValue_of_isSent hrecord (Screen.device refuse) screen
    exact ⟨p.sent, screen, h, .inl ⟨hrun, hrecord, fun x _ hx => hx⟩⟩
  · obtain ⟨v, name, event, hv, hname, hevent, hne⟩ := exists_of_not_isSent hrecord
    have hrun := run_sendValue hv hname hevent hne (Screen.device refuse) screen
    cases hdevice : Screen.device refuse event screen with
    | error reason =>
      rw [hdevice] at hrun
      exact ⟨p.sent, screen, h, .inr ⟨reason, hrun⟩⟩
    | ok screen' =>
      rw [hdevice] at hrun
      obtain ⟨value, hvalue, haccept⟩ := Screen.accept_valueEvent screen hevent
      obtain rfl := (Screen.eq_accept_of_device hdevice).trans haccept
      -- an object has one name and one value, which are now on record
      have hself : IsSent g { p with sent := p.sent.insert name (id, v.state) } id := by
        intro w n _ hw hn _
        rw [hv] at hw
        cases hw
        obtain rfl : name = n := Option.some.inj (hname.symm.trans hn)
        simp
      have hid := hheld id (Graph.mem_ids_of_find? hv)
      refine ⟨_, _, h.record hid hv hvalue name, .inl ⟨hrun, hself, fun x hx hsent => ?_⟩⟩
      by_cases hxid : x = id
      · exact hxid ▸ hself
      · exact hsent.insert fun hn => hxid (hx (hn.trans hname.symm))

/-- **Sending values** one after the other puts all of them on record, as long as no two have one
name. -/
theorem InStep.sendValues (h : InStep held g p screen) (hheld : ∀ x ∈ g.ids, held x)
    (refuse : Event → Screen → Option String) {l all : List ObjectId} (hsub : ∀ x ∈ l, x ∈ all)
    (hnames : ∀ x ∈ all, ∀ y ∈ all, p.linker.names[x]? = p.linker.names[y]? → x = y) :
    ∃ sent screen', InStep held g { p with sent } screen' ∧
      ((l.forM (Program.sendValue (Screen.device refuse) g)).run (p, screen) =
          .ok () ({ p with sent }, screen') ∧
          (∀ x ∈ all, IsSent g p x ∨ x ∈ l → IsSent g { p with sent } x) ∨
        ∃ reason, (l.forM (Program.sendValue (Screen.device refuse) g)).run (p, screen) =
          .error (.device reason) ({ p with sent }, screen')) := by
  -- what is on record stays there while the rest is sent, because no two objects have one name
  induction l generalizing p screen with
  | nil => exact ⟨p.sent, screen, h, .inl ⟨rfl, fun x _ hx => hx.resolve_right nofun⟩⟩
  | cons id l ih =>
    have hid := hsub id List.mem_cons_self
    obtain ⟨sent, screen₁, h₁, ⟨hrun, hself, hkept⟩ | ⟨reason, hrun⟩⟩ :=
      h.sendValue hheld refuse id
    · obtain ⟨sent', screen', h', hrest⟩ :=
        ih h₁ (fun x hx => hsub x (List.mem_cons_of_mem id hx)) hnames
      refine ⟨sent', screen', h', ?_⟩
      rw [run_forM_cons, hrun]
      refine hrest.imp_left fun ⟨hok, hsent⟩ => ⟨hok, fun x hx hcase => hsent x hx ?_⟩
      rw [List.mem_cons] at hcase
      obtain hx' | rfl | hx' := hcase
      · exact .inl (hkept x (hnames x hx id hid) hx')
      · exact .inl hself
      · exact .inr hx'
    · refine ⟨sent, screen₁, h₁, .inr ⟨reason, ?_⟩⟩
      rw [run_forM_cons, hrun]

end Program

end ShaderLink
