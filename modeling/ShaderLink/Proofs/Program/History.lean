import ShaderLink.Proofs.Program.Script
import ShaderLink.Proofs.Store.Assignment

/-!
# What a device has taken

A **scene** is a program over one graph of a session, with the screen of its device and a log,
latest entry first: the sources and values that the device took, and the variables that were
assigned values (`Scene`, `Entry`). A **chronicle** leads to a scene by actions of the session,
requests to the program and draws (`Chronicle`). The device may refuse whatever it likes.

The log tells which sources the device took last (`Entry.lastUpload`), and whether what it took last
under a name is the value that a variable has now (`Entry.IsShown`). The program does not have the
log. It has the sources of its last draw and a record of states, and these agree with the log in
every scene of a chronicle (`Chronicle.recorded`).
-/

namespace ShaderLink

/-- Something that happened. -/
inductive Entry where
  /-- The device took sources, and forgot all values. -/
  | uploaded (vertex fragment : String)
  /-- The device took a value under a name, from the variable that has the name. -/
  | shown (name : String) (owner : Option ObjectId)
  /-- A variable was assigned a value. -/
  | assigned (id : ObjectId)

namespace Entry

/-- The sources that the device took last. -/
def lastUpload : List Entry → Option (String × String)
  | [] => none
  | uploaded vertex fragment :: _ => some (vertex, fragment)
  | _ :: earlier => lastUpload earlier

/-- Since the last upload the device took a value under the name, the last one that it took came
from the variable, and the variable has not been assigned a value after that. -/
def IsShown (name : String) (id : ObjectId) : List Entry → Prop
  | [] => False
  | uploaded _ _ :: _ => False
  | shown n owner :: earlier => if n = name then owner = some id else IsShown name id earlier
  | assigned x :: earlier => x ≠ id ∧ IsShown name id earlier

end Entry

/-- The name under which a value is sent. -/
def Event.name? : Event → Option String
  | .upload _ _ => none
  | .uniform name _ | .vertexAttribute name _ => some name

theorem Event.eq_upload {event : Event} (h : event.name? = none) :
    ∃ vertex fragment, event = .upload vertex fragment := by
  cases event with
  | upload vertex fragment => exact ⟨vertex, fragment, rfl⟩
  | _ => cases h

namespace Program

/-- The emitted object that has a name. -/
def owner? (p : Program) (name : String) : Option ObjectId :=
  p.emitted.find? fun id => p.linker.names[id]? = some name

/-- The entry of an event that a device has taken. -/
def entry (p : Program) : Event → Entry
  | .upload vertex fragment => .uploaded vertex fragment
  | .uniform name _ | .vertexAttribute name _ => .shown name (p.owner? name)

/-- A log once the attempts of a draw are added to it. Those that were refused leave no entry. -/
def logged (p : Program) (attempts : List Attempt) (log : List Entry) : List Entry :=
  attempts.foldl (fun log a => if a.taken then p.entry a.event :: log else log) log

end Program

/-! ### Scenes -/

/-- A program over one graph of a session, its device, and what has happened. -/
structure Scene where
  session : Session
  /-- What the graph has held so far. -/
  held : ObjectId → Prop
  program : Program
  screen : Screen
  /-- What has happened, latest first. -/
  log : List Entry

namespace Scene

/-- The scene after an action. -/
def act (k : Nat) (a : Session.Action) (s : Scene) : Scene where
  session := a.perform s.session
  held := fun x => s.held x ∨ x ∈ ((a.perform s.session).graphs k).ids
  program := s.program
  screen := s.screen
  log := ((a.assigned? s.session k).map .assigned).toList ++ s.log

/-- The scene after a request. -/
def request (k : Nat) (r : Request) (s : Scene) : Scene where
  session := s.session.setStore k (r.perform ⟨s.program, s.session.store k⟩).store
  held := fun x => s.held x ∨ x ∈ (r.perform ⟨s.program, s.session.store k⟩).store.graph.ids
  program := (r.perform ⟨s.program, s.session.store k⟩).program
  screen := s.screen
  log := s.log

/-- Something happens between two draws. Nothing that the graph has held is added again. -/
inductive Move (k : Nat) : Scene → Scene → Prop where
  | act (s : Scene) (a : Session.Action) (ha : a.Possible s.session)
      (hadd : ∀ x, a.Adds k x → ¬ s.held x) : Move k s (s.act k a)
  | request (s : Scene) (r : Request) : Move k s (s.request k r)

variable (k : Nat) (refuse : Event → Screen → Option String)

/-- A draw of the program. -/
def drawing (s : Scene) : EStateM.Result ProgramError (Program × Screen) Unit :=
  (Program.draw (Screen.device refuse) (s.session.graphs k)).run (s.program, s.screen)

/-- What the device is sent by a draw. -/
def attempts (s : Scene) : List Attempt :=
  Program.attempts (Screen.device refuse) (s.session.graphs k) s.program s.screen

/-- The program and the screen after a draw. -/
def drawn (s : Scene) : Program × Screen :=
  stateAfter (Program.draw (Screen.device refuse) (s.session.graphs k)) (s.program, s.screen)

/-- The scene after a draw. -/
def draw (s : Scene) : Scene where
  session := s.session
  held := s.held
  program := (s.drawn k refuse).1
  screen := (s.drawn k refuse).2
  log := (s.drawn k refuse).1.logged (s.attempts k refuse) s.log

end Scene

/-- **What leads to a scene**: actions, requests and draws, from a program that was just made. -/
inductive Chronicle (k : Nat) : Scene → Prop where
  | start {settings : Settings} {vertex fragment : String} {p : Program} (screen : Screen)
      (hp : Program.ofCode settings vertex fragment = .ok p) :
      Chronicle k ⟨.empty, fun _ => False, p, screen, []⟩
  | move {s t : Scene} (h : Chronicle k s) (hmove : s.Move k t) : Chronicle k t
  | draw {s : Scene} (h : Chronicle k s) (refuse : Event → Screen → Option String) :
      Chronicle k (s.draw k refuse)

/-! ### Requests -/

/-- Requests leave the states of variables as they are. -/
theorem Request.state_eq {w : Workspace} {x : ObjectId} {v v' : Variable} (hx : w.store.fresh ≠ x)
    (hv : w.store.graph.find? x = some (.var v)) (r : Request)
    (hv' : (r.perform w).store.graph.find? x = some (.var v')) : v'.state = v.state := by
  have hold : w.store.All (Object.InState x v.state) := Graph.all_inState fun u hu => by
    rw [hv] at hu
    cases hu
    rfl
  exact r.all_perform hereditary_inState hx hold x _ hv' rfl v' rfl

/-- Linking leaves the store alone. -/
theorem Request.perform_link (w : Workspace) :
    link.perform w = ⟨stateAfter (Program.link w.store.graph) w.program, w.store⟩ :=
  Workspace.stateAfter_onProgram ..

theorem Request.evolves {w : Workspace} (hw : w.store.Lawful) (r : Request) :
    Store.Evolves False w.store (r.perform w).store := by
  by_cases hr : r = .link
  · rw [hr, perform_link]
    exact .refl _
  · exact (r.marks hw hr).store

/-- Requests leave what draws have left behind. -/
theorem Request.sameDrawn {w : Workspace} (hw : w.store.Lawful) (r : Request) :
    Program.SameDrawn w.program (r.perform w).program := by
  by_cases hr : r = .link
  · rw [hr, perform_link]
    exact Program.sameDrawn_link w.program w.store.graph
  · obtain hsame | ⟨-, hsame⟩ := (r.marks hw hr).program
    · rw [hsame]
      exact ⟨rfl, rfl, rfl⟩
    · exact hsame

namespace Program

variable {g g' : Graph} {p p' q : Program} {held held' : ObjectId → Prop} {log : List Entry}
  {name : String} {id x : ObjectId} {linked : Linked} {delivery : Delivery}
  {l made rest more : List Delivery} {screen : Screen}

open Entry (lastUpload IsShown)

/-- **The program agrees with the log**: it has the sources that the device took last, and the state
that a variable is in is on record just if its value was shown in this state. -/
structure Recorded (held : ObjectId → Prop) (g : Graph) (p : Program) (log : List Entry) :
    Prop where
  uploaded : p.linked.map (·.sources) = (lastUpload log).map fun s => ⟨some s.1, some s.2⟩
  held : ∀ name id, IsShown name id log → held id
  sent : ∀ name id v, g.find? id = some (.var v) →
    (p.sent[name]? = some (id, v.state) ↔ IsShown name id log)

/-! ### Between draws -/

theorem recorded_start {settings : Settings} {vertex fragment : String}
    (hp : ofCode settings vertex fragment = .ok p) : Recorded held g p [] := by
  obtain ⟨_, _, _, _, -, -, rfl⟩ := of_ofCode hp
  exact { uploaded := rfl, held := nofun, sent := fun name id v _ => by simp [IsShown] }

theorem Recorded.sameDrawn (h : Recorded held g p log) (hsame : SameDrawn p p') :
    Recorded held g p' log where
  uploaded := hsame.linked ▸ h.uploaded
  held := h.held
  sent := hsame.sent ▸ h.sent

/-- **Edits keep a program in agreement** with the log, if the variable that they assign a value to
is added to it. -/
theorem Recorded.steps {new : ObjectId → Prop} {flip : Prop} {assigned : Option ObjectId}
    (h : Recorded held g p log) (hin : InStep held g p screen)
    (hsteps : Graph.Steps new flip g g') (hnew : ∀ x, new x → ¬ held x)
    (hmore : ∀ x, held x → held' x)
    (hkept : ∀ x v v', held x → assigned ≠ some x → g.find? x = some (.var v) →
      g'.find? x = some (.var v') → v'.state = v.state)
    (hraised : ∀ x v v', assigned = some x → g.find? x = some (.var v) →
      g'.find? x = some (.var v') → v.state < v'.state) :
    Recorded held' g' p ((assigned.map .assigned).toList ++ log) := by
  have hshown : ∀ name id, IsShown name id ((assigned.map .assigned).toList ++ log) ↔
      assigned ≠ some id ∧ IsShown name id log := by
    intro name id
    cases assigned with
    | none => simp
    | some x => simp [IsShown]
  refine { uploaded := ?_, held := fun name id hid => ?_, sent := fun name id v' hv' => ?_ }
  · rw [h.uploaded]
    cases assigned <;> rfl
  · exact hmore id (h.held name id ((hshown name id).1 hid).2)
  · rw [hshown]
    by_cases hid : held id
    · -- the variable was there before
      obtain ⟨o, ho, hiff⟩ := Graph.Steps.isVariable hsteps (fun hn => hnew id hn hid) hv'
      obtain ⟨v, rfl⟩ := hiff.2 ⟨v', rfl⟩
      by_cases hassigned : assigned = some id
      · -- what is on record is no later than the state before it was assigned a value
        have hlt := hraised id v v' hassigned ho hv'
        refine iff_of_false (fun hsent => ?_) fun hno => hno.1 hassigned
        have hle := ((hin.sent name id v'.state hsent).2 v ho).1
        omega
      · rw [hkept id v v' hid hassigned ho hv', h.sent name id v ho]
        exact (and_iff_right hassigned).symm
    · exact iff_of_false (fun hsent => hid (hin.sent name id v'.state hsent).1)
        fun hno => hid (h.held name id hno.2)

theorem Recorded.request {w : Workspace} (h : Recorded held w.store.graph w.program log)
    (hin : InStep held w.store.graph w.program screen) (hw : w.store.Lawful)
    (hfresh : ∀ x, w.store.fresh.index ≤ x.index → ¬ held x) (r : Request) :
    Recorded (fun x => held x ∨ x ∈ (r.perform w).store.graph.ids) (r.perform w).store.graph
      (r.perform w).program log := by
  have hkept : ∀ x v v', held x → none ≠ some x → w.store.graph.find? x = some (.var v) →
      (r.perform w).store.graph.find? x = some (.var v') → v'.state = v.state := by
    intro x v v' hx _ hv hv'
    refine r.state_eq ?_ hv hv'
    rintro rfl
    exact hfresh _ (Nat.le_refl _) hx
  have hmore : ∀ x, held x → held x ∨ x ∈ (r.perform w).store.graph.ids := fun _ hx => .inl hx
  have hgraph := h.steps hin (r.evolves hw).steps (fun x hx => hfresh x hx.1) hmore hkept
    fun _ _ _ hnone => nomatch hnone
  exact hgraph.sameDrawn (r.sameDrawn hw)

/-! ### Draws -/

/-- What is sent once linking has succeeded are the sources of both stages. -/
theorem uploaded_of_link (h : (link g).run p = .ok linked p') :
    linked.sources = ⟨some linked.uploaded.1, some linked.uploaded.2⟩ := by
  obtain ⟨-, l, hlink, -⟩ := of_run_link h
  obtain ⟨vertex, fragment, hsources⟩ := Linker.sources_of_link hlink
  rw [Linked.uploaded, hsources]
  rfl

/-- Linking to the sources that the device has changes nothing for it. -/
theorem Recorded.drawn (h : Recorded held g p' log)
    (hsame : p'.linked.map (·.sources) = some linked.sources) :
    Recorded held g (p'.drawn g linked) log where
  uploaded := hsame.symm.trans h.uploaded
  held := h.held
  sent := h.sent

/-- An upload that is taken leaves no values. -/
theorem recorded_upload (h : linked.sources = ⟨some linked.uploaded.1, some linked.uploaded.2⟩)
    (q : Program) (log : List Entry) :
    Recorded held g ((Delivery.upload g linked).note p)
      (q.entry (Delivery.upload g linked).event :: log) where
  uploaded := congrArg some h
  held := nofun
  sent := fun name id v _ => by simp [Delivery.upload, Program.drawn, entry, IsShown]

theorem name?_valueEvent? {v : Variable} {event : Event} (h : valueEvent? v name = some event) :
    event.name? = some name := by
  unfold valueEvent? at h
  split at h
  · cases h
    rfl
  · cases h
    rfl
  · cases h

theorem entry_of_name? {event : Event} (h : event.name? = some name) :
    p.entry event = .shown name (p.owner? name) := by
  cases event with
  | upload vertex fragment => cases h
  | uniform n value =>
    cases h
    rfl
  | vertexAttribute n value =>
    cases h
    rfl

/-- The one that has a name is the one that is found. -/
theorem Distinct.owner? (h : p.Distinct) (hid : id ∈ p.emitted)
    (hname : p.linker.names[id]? = some name) : p.owner? name = some id := by
  obtain ⟨x, hx⟩ : ∃ x, p.owner? name = some x := by
    rw [← Option.isSome_iff_exists, Program.owner?, List.find?_isSome]
    exact ⟨id, hid, by simpa using hname⟩
  have hnamed := List.find?_some hx
  have hmem := List.mem_of_find?_eq_some hx
  rw [hx, h.injective x hmem id hid ((by simpa using hnamed : _ = some name).trans hname.symm)]

/-- A value that is taken is shown, under no other name than before. -/
theorem Recorded.value {v : Variable} (h : Recorded held g p log) (hid : held id)
    (hv : g.find? id = some (.var v)) (name : String) :
    Recorded held g { p with sent := p.sent.insert name (id, v.state) }
      (.shown name (some id) :: log) where
  uploaded := h.uploaded
  held := fun n x hx => by
    rw [IsShown] at hx
    split at hx
    · obtain rfl := Option.some.inj hx
      exact hid
    · exact h.held n x hx
  sent := fun n x w hw => by
    rw [IsShown]
    change (p.sent.insert name (id, v.state))[n]? = _ ↔ _
    rw [Std.ExtTreeMap.getElem?_insert]
    by_cases hn : name = n
    · -- the state is that of the variable, which is the only one with its identifier
      simp only [hn, Std.compare_self, if_true, Option.some.injEq, Prod.mk.injEq]
      refine ⟨fun heq => heq.1, fun heq => ⟨heq, ?_⟩⟩
      subst heq
      rw [hv] at hw
      cases hw
      rfl
    · simp only [Std.compare_eq_iff_eq, hn, if_false]
      exact h.sent n x w hw

/-- **Deliveries that are pending in turn keep a program in agreement** with the log. -/
theorem Recorded.inTurn (h : Recorded held g p log) (hdistinct : p.Distinct)
    (hheld : ∀ x ∈ g.ids, held x) (hturn : InTurn g p l) (howner : q.owner? = p.owner?) :
    Recorded held g (Delivery.noted p l) (q.logged (l.map Delivery.taken) log) := by
  induction hturn generalizing log with
  | nil p => exact h
  | @cons p delivery l hpending _ ih =>
    obtain ⟨id, v, name, event, hid, hv, hname, hevent, -, rfl⟩ := hpending
    have hentry : q.entry event = .shown name (some id) := by
      rw [entry_of_name? (name?_valueEvent? hevent), howner, hdistinct.owner? hid hname]
    have hrecorded := h.value (hheld id (Graph.mem_ids_of_find? hv)) hv name
    rw [← hentry] at hrecorded
    exact ih hrecorded (hdistinct.withSent _) howner

theorem InTurn.owner? (h : InTurn g p l) : (Delivery.noted p l).owner? = p.owner? := by
  obtain ⟨sent, hsent⟩ := h.noted
  rw [hsent]
  rfl

/-- **A script of values.** -/
structure SendsValues (g : Graph) (p q : Program) (values : List Delivery) : Prop where
  distinct : q.Distinct
  not_due : ¬ Due g q
  inTurn : InTurn g q values
  recorded : ∀ held log, Recorded held g p log → Recorded held g q log

/-- **A script of an upload and values.** -/
structure SendsSources (g : Graph) (p q : Program) (linked : Linked) (values : List Delivery) :
    Prop where
  due : Due g p
  link : (Program.link g).run p = .ok linked q
  other : q.linked.map (·.sources) ≠ some linked.sources
  distinct : ((Delivery.upload g linked).note q).Distinct
  inTurn : InTurn g ((Delivery.upload g linked).note q) values

theorem Script.cases (h : Script g p q l) (hsettled : ¬ Due g p → Settled p g) :
    SendsValues g p q l ∨
      ∃ linked values, l = .upload g linked :: values ∧ SendsSources g p q linked values := by
  cases h with
  | idle hdue =>
    have hdistinct := (hsettled hdue).distinct
    exact .inl ⟨hdistinct, hdue, hdistinct.run_sendLinked.1, fun _ _ hrecorded => hrecorded⟩
  | same hdue hlink hsame =>
    have hdistinct := (settled_of_link hlink false (some g.generation)).distinct
    exact .inl ⟨hdistinct, not_due_drawn, hdistinct.run_sendLinked.1, fun _ _ hrecorded =>
      (hrecorded.sameDrawn (sameDrawn_of_link hlink)).drawn hsame⟩
  | upload hdue hlink hother =>
    have hdistinct := ((settled_of_link hlink false (some g.generation)).withSent ∅).distinct
    exact .inr ⟨_, _, rfl, hdue, hlink, hother, hdistinct, hdistinct.run_sendLinked.1⟩

/-- **Making deliveries of a script keeps a program in agreement** with the log, whose entries are
made when the draw is over. -/
theorem Recorded.script (h : Recorded held g p log) (hsettled : ¬ Due g p → Settled p g)
    (hheld : ∀ x ∈ g.ids, held x) (hscript : Script g p q (made ++ more ++ rest)) :
    Recorded held g (Delivery.noted q made)
      ((Delivery.noted q (made ++ more)).logged (made.map Delivery.taken) log) := by
  obtain hvalues | ⟨linked, values, hl, hsources⟩ := hscript.cases hsettled
  · have hmade := hvalues.inTurn.split.1
    exact (hvalues.recorded held log h).inTurn hvalues.distinct hheld hmade.split.1 hmade.owner?
  · cases made with
    | nil => exact h.sameDrawn (sameDrawn_of_link hsources.link)
    | cons x made =>
      obtain ⟨rfl, rfl⟩ := List.cons.inj hl
      have hmade := hsources.inTurn.split.1
      exact (recorded_upload (uploaded_of_link hsources.link) _ log).inTurn hsources.distinct hheld
        hmade.split.1 hmade.owner?

/-- What is refused leaves no entry. -/
theorem logged_sent (p : Program) (made rest : List Delivery) (log : List Entry) :
    p.logged (Delivery.sent made rest) log = p.logged (made.map Delivery.taken) log := by
  rw [logged, Delivery.sent, List.foldl_append]
  cases rest <;> rfl

end Program

variable {k : Nat} {s t : Scene} {e : ProgramError} {p q : Program} {made rest : List Delivery}
  {refuse : Event → Screen → Option String}

open Program

/-- **A draw that fails to link.** -/
structure Scene.Stops (k : Nat) (refuse : Event → Screen → Option String) (s : Scene)
    (e : ProgramError) (p : Program) : Prop where
  due : Due (s.session.graphs k) s.program
  link : (Program.link (s.session.graphs k)).run s.program = .error e p
  drawing : s.drawing k refuse = .error e (p, s.screen)
  attempts : s.attempts k refuse = []

namespace Scene.Stops

theorem program (h : s.Stops k refuse e p) : (s.draw k refuse).program = p := by
  rw [draw, drawn, stateAfter_eq_of_error h.drawing]

theorem log (h : s.Stops k refuse e p) : (s.draw k refuse).log = s.log := by
  rw [draw, h.attempts]
  rfl

theorem sameDrawn (h : s.Stops k refuse e p) : SameDrawn s.program p :=
  stateAfter_eq_of_error h.link ▸ sameDrawn_link s.program _

end Scene.Stops

/-- **A draw that makes deliveries**, all of them or up to one that is refused. -/
structure Scene.Makes (k : Nat) (refuse : Event → Screen → Option String) (s : Scene) (q : Program)
    (made rest : List Delivery) : Prop where
  script : Script (s.session.graphs k) s.program q (made ++ rest)
  attempts : s.attempts k refuse = Delivery.sent made rest
  drawing : (rest = [] ∧ ∃ screen,
      s.drawing k refuse = .ok () (Delivery.noted q made, screen)) ∨
    rest ≠ [] ∧ ∃ reason screen,
      s.drawing k refuse = .error (.device reason) (Delivery.noted q made, screen)

namespace Scene.Makes

theorem program (h : s.Makes k refuse q made rest) :
    (s.draw k refuse).program = Delivery.noted q made := by
  rw [draw, drawn]
  obtain ⟨-, screen, hdrawing⟩ | ⟨-, reason, screen, hdrawing⟩ := h.drawing
  · rw [stateAfter_eq_of_ok hdrawing]
  · rw [stateAfter_eq_of_error hdrawing]

theorem log (h : s.Makes k refuse q made rest) : (s.draw k refuse).log =
    (s.draw k refuse).program.logged (made.map Delivery.taken) s.log := by
  change (s.draw k refuse).program.logged (s.attempts k refuse) s.log = _
  rw [h.attempts, logged_sent]

end Scene.Makes

/-- **A draw fails to link or makes deliveries.** -/
theorem Scene.draw_cases (hsettled : ¬ Due (s.session.graphs k) s.program →
      Settled s.program (s.session.graphs k)) (refuse : Event → Screen → Option String) :
    (∃ e p, s.Stops k refuse e p) ∨ ∃ q made rest, s.Makes k refuse q made rest := by
  obtain ⟨hdue, e, p', hlink, hdraw⟩ | ⟨q, l, hscript, hdraw⟩ := Program.draw_cases hsettled
  · refine .inl ⟨e, p', hdue, hlink, hdraw _ _, ?_⟩
    rw [attempts, Program.attempts, stateAfter_eq_of_error (hdraw _ _)]
  · have hattempts := attempts_eq (Screen.device refuse) s.screen hdraw
    obtain ⟨screen, hrun, hsent⟩ | ⟨made, x, rest, reason, screen, rfl, hrun, hsent⟩ :=
      Delivery.run_cases (Screen.device refuse) l q s.screen
    · refine .inr ⟨q, l, [], (List.append_nil l).symm ▸ hscript, ?_, .inl ⟨rfl, screen, ?_⟩⟩
      · rw [attempts, hattempts, hsent]
        exact (List.append_nil _).symm
      · exact (hdraw _ _).trans hrun
    · exact .inr ⟨q, made, x :: rest, hscript, hattempts.trans hsent,
        .inr ⟨List.cons_ne_nil x rest, reason, screen, (hdraw _ _).trans hrun⟩⟩

/-! ### Chronicles -/

/-- A chronicle is a run, and keeps its log besides. -/
theorem Chronicle.run (h : Chronicle k s) : Run k s.session s.held s.program s.screen := by
  induction h with
  | start screen hp => exact .start screen hp
  | move _ hmove ih =>
    cases hmove with
    | act a ha hadd => exact ih.act a ha hadd
    | request r => exact ih.request r
  | draw _ refuse ih => exact ih.draw refuse

theorem Chronicle.settled (h : Chronicle k s) (hdue : ¬ Due (s.session.graphs k) s.program) :
    Settled s.program (s.session.graphs k) := by
  rw [Due, not_or, Bool.not_eq_true, not_not] at hdue
  exact h.run.sound.inStep.settled hdue.1 hdue.2

/-- The program of a scene agrees with the log. -/
def Scene.Recorded (k : Nat) (s : Scene) : Prop :=
  Program.Recorded s.held (s.session.graphs k) s.program s.log

/-- What a run keeps, of a scene. -/
abbrev Scene.Sound (k : Nat) (s : Scene) : Prop :=
  Program.Sound k s.session s.held s.program s.screen

theorem Scene.Recorded.act (h : s.Recorded k) (hs : s.Sound k) {a : Session.Action}
    (ha : a.Possible s.session) (hadd : ∀ x, a.Adds k x → ¬ s.held x) :
    (s.act k a).Recorded k := by
  obtain ⟨new, hnew, hsteps⟩ := hs.tracks.steps ha hadd
  refine Program.Recorded.steps h hs.inStep hsteps hnew (fun _ hx => .inl hx) ?_ ?_
  · intro x v v' hx hassigned hv hv'
    exact Session.Action.state_eq hs.tracks.lawful hassigned (fun hadds => hadd x hadds hx) hv hv'
  · intro x v v' hassigned hv hv'
    exact Session.Action.state_lt hs.tracks.lawful hassigned hv hv'

theorem Scene.Recorded.request (h : s.Recorded k) (hs : s.Sound k) (r : Request) :
    (s.request k r).Recorded k := by
  have hrequest := Program.Recorded.request (w := ⟨s.program, s.session.store k⟩) h hs.inStep
    (hs.tracks.lawful.store k) (fun x hx => hs.tracks.not_held hx) r
  rw [Scene.Recorded, Scene.request, Session.graphs_setStore]
  exact hrequest

theorem Scene.Recorded.draw (h : s.Recorded k) (hs : s.Sound k)
    (hsettled : ¬ Due (s.session.graphs k) s.program → Settled s.program (s.session.graphs k))
    (refuse : Event → Screen → Option String) : (s.draw k refuse).Recorded k := by
  obtain ⟨e, p, hstops⟩ | ⟨q, made, rest, hmakes⟩ := s.draw_cases hsettled refuse
  · have hsame := Program.Recorded.sameDrawn h hstops.sameDrawn
    rw [← hstops.program, ← hstops.log] at hsame
    exact hsame
  · have hscript := hmakes.script
    rw [← List.append_nil made] at hscript
    have hrecorded := Program.Recorded.script h hsettled hs.tracks.complete hscript
    rw [List.append_nil, ← hmakes.program, ← hmakes.log] at hrecorded
    exact hrecorded

/-- **In every scene of a chronicle the program agrees with the log.** -/
theorem Chronicle.recorded (h : Chronicle k s) : s.Recorded k := by
  induction h with
  | start screen hp => exact recorded_start hp
  | @move s t h hmove ih =>
    cases hmove with
    | act a ha hadd => exact ih.act h.run.sound ha hadd
    | request r => exact ih.request h.run.sound r
  | @draw s h refuse ih => exact ih.draw h.run.sound h.settled refuse

/-- The scene after edits of the graph, one after the other. -/
def Scene.edited (k : Nat) (s : Scene) (ops : List Operation) : Scene :=
  ops.foldl (fun s op => s.act k (.edit k op)) s

theorem Chronicle.edited (h : Chronicle k s) (ops : List Operation) :
    Chronicle k (s.edited k ops) := by
  induction ops generalizing s with
  | nil => exact h
  | cons op ops ih =>
    exact ih (h.move (.act s _ trivial fun x hx => absurd hx Session.Action.not_adds_edit))

end ShaderLink
