import ShaderLink.Proofs.Program.Coherence

/-!
# What a draw sends

What a draw sends is settled before it sends anything. Once it has linked, if it has to, there is a
list of **deliveries**: events, each with what the program notes when the device takes it. The draw
makes them one after the other until the device refuses one (`Program.draw_cases`). So the device
decides how far a draw gets, and nothing else.

The deliveries are an upload, if there are other sources, and then whatever is **pending**
(`Program.pending`): the values of what is emitted that are not on record. Each has a name of its
own, because what is emitted has, so none of them puts another on record
(`Program.Distinct.run_sendLinked`).

What a device is sent, taken or not, are the **attempts** of the draw (`Program.attempts`).
-/

namespace ShaderLink

/-- An event, and what the program notes once the device has taken it. -/
structure Delivery where
  event : Event
  note : Program → Program

namespace Delivery

variable {τ : Type}

/-- The upload of what a program was linked to. The device forgets all values. -/
def upload (g : Graph) (linked : Linked) : Delivery where
  event := .upload linked.uploaded.1 linked.uploaded.2
  note := fun p => ({ p with sent := ∅ } : Program).drawn g linked

/-- The sending of the value that a variable has in a state. -/
def value (name : String) (id : ObjectId) (state : Nat) (event : Event) : Delivery where
  event := event
  note := fun p => { p with sent := p.sent.insert name (id, state) }

/-- Makes deliveries one after the other. -/
def run (device : Device τ) : List Delivery → DrawM τ Unit
  | [] => pure ()
  | x :: rest => do
    Program.send device x.event
    modify fun (p, d) => (x.note p, d)
    run device rest

/-- The program once deliveries have been made. -/
def noted (p : Program) (l : List Delivery) : Program := l.foldl (fun p x => x.note p) p

@[simp] theorem noted_nil (p : Program) : noted p [] = p := rfl

@[simp] theorem noted_cons (p : Program) (x : Delivery) (l : List Delivery) :
    noted p (x :: l) = noted (x.note p) l := rfl

variable {x : Delivery} {rest : List Delivery} {device : Device τ} {p : Program} {d d' : τ}
  {reason : String}

theorem run_cons_of_ok (h : device x.event d = .ok d') :
    (run device (x :: rest)).run (p, d) = (run device rest).run (x.note p, d') := by
  rw [run, EStateM.run_bind, Program.run_send, h]
  rfl

theorem run_cons_of_error (h : device x.event d = .error reason) :
    (run device (x :: rest)).run (p, d) = .error (.device reason) (p, d) := by
  rw [run, EStateM.run_bind, Program.run_send, h]

end Delivery

/-- Something that was sent to a device, and whether it was taken. -/
structure Attempt where
  event : Event
  taken : Bool
deriving DecidableEq

/-- A device that notes what it is sent. In order to note the first event that `device` refuses it
takes that event too, and after it refuses everything without noting it. -/
def Device.noting {τ : Type} (device : Device τ) : Device (τ × List Attempt) :=
  fun event (d, log) =>
    if log.all (·.taken) then
      match device event d with
      | .ok d => .ok (d, log ++ [⟨event, true⟩])
      | .error _ => .ok (d, log ++ [⟨event, false⟩])
    else .error "refused"

namespace Delivery

variable {τ : Type} {device : Device τ} {p : Program} {d d' : τ} {x : Delivery}
  {l : List Delivery} {log : List Attempt} {reason : String}

/-- What a device notes that takes a delivery. -/
def taken (x : Delivery) : Attempt := ⟨x.event, true⟩

/-- What a device notes that refuses a delivery. -/
def refused (x : Delivery) : Attempt := ⟨x.event, false⟩

/-- What a device is sent by deliveries that are made until it refuses one. -/
def attempted (device : Device τ) : List Delivery → τ → List Attempt
  | [], _ => []
  | x :: rest, d =>
    match device x.event d with
    | .ok d => x.taken :: attempted device rest d
    | .error _ => [x.refused]

theorem attempted_cons_of_ok (h : device x.event d = .ok d') :
    attempted device (x :: l) d = x.taken :: attempted device l d' := by
  rw [attempted, h]

theorem attempted_cons_of_error (h : device x.event d = .error reason) :
    attempted device (x :: l) d = [x.refused] := by
  rw [attempted, h]

/-- Nothing is noted after a refusal. -/
theorem noting_refused (h : ¬ log.all (·.taken)) (event : Event) (d : τ) :
    device.noting event (d, log) = .error "refused" := if_neg h

/-- **What is noted** is what the device is sent. -/
theorem log_run (hlog : log.all (·.taken)) :
    (stateAfter (run device.noting l) (p, d, log)).2.2 = log ++ attempted device l d := by
  induction l generalizing p d log with
  | nil => exact (List.append_nil log).symm
  | cons x l ih =>
    cases hdevice : device x.event d with
    | ok d' =>
      have hnoting : device.noting x.event (d, log) = .ok (d', log ++ [x.taken]) := by
        rw [Device.noting, if_pos hlog, hdevice]
        rfl
      rw [stateAfter, run_cons_of_ok hnoting, attempted_cons_of_ok hdevice]
      have hall : (log ++ [x.taken]).all (·.taken) := by simp [hlog, taken]
      have hrest := ih (p := x.note p) (d := d') hall
      rw [List.append_assoc] at hrest
      exact hrest
    | error reason =>
      have hnoting : device.noting x.event (d, log) = .ok (d, log ++ [x.refused]) := by
        rw [Device.noting, if_pos hlog, hdevice]
        rfl
      rw [stateAfter, run_cons_of_ok hnoting, attempted_cons_of_error hdevice]
      -- what comes next is refused without a note
      cases l with
      | nil => rfl
      | cons y l => rw [run_cons_of_error (noting_refused (by simp [refused]) y.event d)]

/-- **Making deliveries**: all of them are taken, or one is refused after the others before it were
taken. -/
theorem run_cases (device : Device τ) (l : List Delivery) (p : Program) (d : τ) :
    (∃ d', (run device l).run (p, d) = .ok () (noted p l, d') ∧
      attempted device l d = l.map taken) ∨
    ∃ made x rest reason d', l = made ++ x :: rest ∧
      (run device l).run (p, d) = .error (.device reason) (noted p made, d') ∧
      attempted device l d = made.map taken ++ [x.refused] := by
  induction l generalizing p d with
  | nil => exact .inl ⟨d, rfl, rfl⟩
  | cons x l ih =>
    cases hdevice : device x.event d with
    | ok d' =>
      rw [run_cons_of_ok hdevice, attempted_cons_of_ok hdevice]
      obtain ⟨d₁, hrun, hattempted⟩ | ⟨made, y, rest, reason, d₁, rfl, hrun, hattempted⟩ :=
        ih (x.note p) d'
      · exact .inl ⟨d₁, hrun, by rw [hattempted, List.map_cons]⟩
      · exact .inr ⟨x :: made, y, rest, reason, d₁, rfl, hrun, by rw [hattempted]; rfl⟩
    | error reason =>
      rw [run_cons_of_error hdevice, attempted_cons_of_error hdevice]
      exact .inr ⟨[], x, l, reason, d, rfl, rfl, rfl⟩

/-- What a device is sent when some deliveries are made and others are left. -/
def sent (made rest : List Delivery) : List Attempt :=
  made.map taken ++ (rest.head?.map refused).toList

/-- Whatever the device is sent is one of the deliveries, and those before it were taken. -/
theorem sent_split {made rest : List Delivery} {before after : List Attempt} {a : Attempt}
    (h : sent made rest = before ++ a :: after) : ∃ first more y last, made = first ++ more ∧
      more ++ rest = y :: last ∧ before = first.map taken ∧ a.event = y.event := by
  induction made generalizing before with
  | nil =>
    cases rest with
    | nil => cases before <;> cases h
    | cons y rest =>
      cases before with
      | nil =>
        cases h
        exact ⟨[], [], y, rest, rfl, rfl, rfl, rfl⟩
      | cons b before => cases before <;> cases h
  | cons y made ih =>
    cases before with
    | nil =>
      cases h
      exact ⟨[], y :: made, y, made ++ rest, rfl, rfl, rfl, rfl⟩
    | cons b before =>
      obtain ⟨rfl, hrest⟩ := List.cons.inj h
      obtain ⟨first, more, z, last, rfl, hlast, rfl, ha⟩ := ih hrest
      exact ⟨y :: first, more, z, last, rfl, hlast, rfl, ha⟩

theorem events_sent (made rest : List Delivery) :
    (sent made rest).map (·.event) = (made ++ rest.head?.toList).map (·.event) := by
  cases rest <;> simp [sent, taken, refused]

end Delivery

namespace Program

variable {g : Graph} {p p' q : Program} {id x : ObjectId} {linked : Linked} {τ : Type}
  {delivery : Delivery} {l : List Delivery}

/-! ### Pending values -/

/-- What was emitted at the last draw that linked. -/
def emitted (p : Program) : List ObjectId :=
  match p.linked with
  | some linked => linked.objects
  | none => []

/-- The sending of the value of an object, if it has one that is not on record. -/
def pending? (g : Graph) (p : Program) (id : ObjectId) : Option Delivery :=
  match g.find? id, p.linker.names[id]? with
  | some (.var v), some name =>
    match valueEvent? v name with
    | some event =>
      if p.sent[name]? = some (id, v.state) then none
      else some (.value name id v.state event)
    | none => none
  | _, _ => none

/-- All values that are not on record. -/
def pending (g : Graph) (p : Program) : List Delivery := p.emitted.filterMap (pending? g p)

/-- A delivery of the value of something emitted that is not on record. -/
def IsPending (g : Graph) (p : Program) (delivery : Delivery) : Prop :=
  ∃ id v name event, id ∈ p.emitted ∧ g.find? id = some (.var v) ∧
    p.linker.names[id]? = some name ∧ valueEvent? v name = some event ∧
    p.sent[name]? ≠ some (id, v.state) ∧ delivery = .value name id v.state event

theorem pending?_eq_some {v : Variable} {name : String} {event : Event}
    (hv : g.find? id = some (.var v)) (hname : p.linker.names[id]? = some name)
    (hevent : valueEvent? v name = some event) (hsent : p.sent[name]? ≠ some (id, v.state)) :
    pending? g p id = some (.value name id v.state event) := by
  simp only [pending?, hv, hname, hevent, hsent, if_false]

theorem pending?_eq_none (h : IsSent g p id) : pending? g p id = none := by
  unfold pending?
  split
  · next v name hv hname =>
    split
    · next event hevent => exact if_pos (h v name event hv hname hevent)
    · rfl
  · rfl

/-- A value that is recorded under another name changes nothing for an object. -/
theorem pending?_insert {name : String} {r : ObjectId × Nat} (h : p.linker.names[x]? ≠ some name) :
    pending? g { p with sent := p.sent.insert name r } x = pending? g p x := by
  unfold pending?
  dsimp only
  split
  · next v n hv hn =>
    have hne : name ≠ n := fun heq => h (heq ▸ hn)
    simp only [Std.ExtTreeMap.getElem?_insert, Std.compare_eq_iff_eq, hne, if_false]
  · rfl

/-- What is emitted is listed once and has a name of its own. -/
structure Distinct (p : Program) : Prop where
  nodup : p.emitted.Nodup
  injective : ∀ x ∈ p.emitted, ∀ y ∈ p.emitted,
    p.linker.names[x]? = p.linker.names[y]? → x = y

theorem Settled.distinct (h : Settled p g) : p.Distinct := by
  obtain ⟨linked, hlinked, -, -, hlink⟩ := h
  have hemitted : p.emitted = linked.objects := by rw [emitted, hlinked]
  exact ⟨hemitted ▸ Linker.nodup_of_link hlink, hemitted ▸ (Linker.names_of_link hlink).2⟩

theorem Distinct.withSent (h : p.Distinct) (sent : Std.ExtTreeMap String (ObjectId × Nat)) :
    Distinct { p with sent } :=
  ⟨h.nodup, h.injective⟩

/-- **Deliveries that are pending in turn**: each is when those before it are on record. -/
inductive InTurn (g : Graph) : Program → List Delivery → Prop where
  | nil (p : Program) : InTurn g p []
  | cons {p : Program} {delivery : Delivery} {l : List Delivery} (h : IsPending g p delivery)
      (hrest : InTurn g (delivery.note p) l) : InTurn g p (delivery :: l)

theorem InTurn.noted (h : InTurn g p l) : ∃ sent, Delivery.noted p l = { p with sent } := by
  induction h with
  | nil p => exact ⟨p.sent, rfl⟩
  | @cons p delivery l h _ ih =>
    obtain ⟨id, v, name, event, -, -, -, -, -, rfl⟩ := h
    exact ih

/-- Deliveries are pending in turn up to any point, and the others are once those are on record. -/
theorem InTurn.split {before after : List Delivery} (h : InTurn g p (before ++ after)) :
    InTurn g p before ∧ InTurn g (Delivery.noted p before) after := by
  induction before generalizing p with
  | nil => exact ⟨.nil p, h⟩
  | cons y before ih =>
    cases h with
    | cons h hrest =>
      obtain ⟨hbefore, hafter⟩ := ih hrest
      exact ⟨.cons h hbefore, hafter⟩

/-- Sending the values of objects with names of their own is making the deliveries that are pending
for them, which are pending in turn. -/
theorem run_sendValues {ids : List ObjectId} (hsub : ∀ x ∈ ids, x ∈ p.emitted) (hnodup : ids.Nodup)
    (hinj : ∀ x ∈ ids, ∀ y ∈ ids, p.linker.names[x]? = p.linker.names[y]? → x = y) :
    InTurn g p (ids.filterMap (pending? g p)) ∧ ∀ {τ : Type} (device : Device τ) (d : τ),
      (ids.forM (sendValue device g)).run (p, d) =
        (Delivery.run device (ids.filterMap (pending? g p))).run (p, d) := by
  induction ids generalizing p with
  | nil => exact ⟨.nil p, fun _ _ => rfl⟩
  | cons id ids ih =>
    obtain ⟨hid, hnodup⟩ := List.nodup_cons.1 hnodup
    have hsub' : ∀ x ∈ ids, x ∈ p.emitted := fun x hx => hsub x (List.mem_cons_of_mem id hx)
    have hinj' : ∀ x ∈ ids, ∀ y ∈ ids, p.linker.names[x]? = p.linker.names[y]? → x = y :=
      fun x hx y hy => hinj x (List.mem_cons_of_mem id hx) y (List.mem_cons_of_mem id hy)
    by_cases hsent : IsSent g p id
    · obtain ⟨hturn, hrun⟩ := ih hsub' hnodup hinj'
      rw [List.filterMap_cons_none (pending?_eq_none hsent)]
      refine ⟨hturn, fun device d => ?_⟩
      rw [run_forM_cons, run_sendValue_of_isSent hsent]
      exact hrun device d
    · obtain ⟨v, name, event, hv, hname, hevent, hne⟩ := exists_of_not_isSent hsent
      obtain ⟨hturn, hrun⟩ := ih (p := { p with sent := p.sent.insert name (id, v.state) })
        hsub' hnodup hinj'
      -- the others have other names, so the same is pending for them once this is on record
      have hsame : ids.filterMap (pending? g { p with sent := p.sent.insert name (id, v.state) }) =
          ids.filterMap (pending? g p) := by
        refine List.filterMap_congr fun x hx => pending?_insert fun hn => hid ?_
        exact hinj x (List.mem_cons_of_mem id hx) id List.mem_cons_self (hn.trans hname.symm) ▸ hx
      rw [hsame] at hturn hrun
      rw [List.filterMap_cons_some (pending?_eq_some hv hname hevent hne)]
      refine ⟨.cons ⟨id, v, name, event, hsub id List.mem_cons_self, hv, hname, hevent, hne, rfl⟩
        hturn, fun device d => ?_⟩
      rw [run_forM_cons, run_sendValue hv hname hevent hne]
      cases hdevice : device event d with
      | ok d' => rw [Delivery.run_cons_of_ok hdevice]; exact hrun device d'
      | error reason => rw [Delivery.run_cons_of_error hdevice]

/-- **All that is pending** is sent by sending the values of what is emitted, and is pending in
turn. -/
theorem Distinct.run_sendLinked (h : p.Distinct) :
    InTurn g p (pending g p) ∧ ∀ {τ : Type} (device : Device τ) (d : τ),
      (sendLinked device g p).run (p, d) = (Delivery.run device (pending g p)).run (p, d) := by
  obtain ⟨hturn, hrun⟩ := run_sendValues (g := g) (p := p) (fun _ hx => hx) h.nodup h.injective
  refine ⟨hturn, fun device d => ?_⟩
  rw [pending, ← hrun, sendLinked, emitted]
  cases p.linked <;> rfl

/-! ### Scripts -/

/-- Whether a draw has to link first. -/
def Due (g : Graph) (p : Program) : Prop := p.dirty ∨ p.generation ≠ some g.generation

theorem run_draw_of_due (h : Due g p) (device : Device τ) (d : τ) :
    (draw device g).run (p, d) = match (relink device g).run (p, d) with
      | .ok _ t => (sendLinked device g t.1).run t
      | .error e t => .error e t :=
  (run_draw device g p d).trans (if_pos h)

theorem run_draw_of_not_due (h : ¬ Due g p) (device : Device τ) (d : τ) :
    (draw device g).run (p, d) = (sendLinked device g p).run (p, d) :=
  (run_draw device g p d).trans (if_neg h)

/-- A program that was just linked for a draw does not have to be linked. -/
theorem not_due_drawn : ¬ Due g (p.drawn g linked) := by
  rintro (hdirty | hgeneration)
  · cases hdirty
  · exact hgeneration rfl

/-- **The deliveries of a draw** that does not fail to link, with the program that they start
from. -/
inductive Script (g : Graph) (p : Program) : Program → List Delivery → Prop where
  /-- Nothing has changed. -/
  | idle (hdue : ¬ Due g p) : Script g p p (pending g p)
  /-- Linking gives the sources that the device has. -/
  | same {linked : Linked} {p' : Program} (hdue : Due g p) (hlink : (link g).run p = .ok linked p')
      (hsame : p'.linked.map (·.sources) = some linked.sources) :
      Script g p (p'.drawn g linked) (pending g (p'.drawn g linked))
  /-- Linking gives other sources. -/
  | upload {linked : Linked} {p' : Program} (hdue : Due g p)
      (hlink : (link g).run p = .ok linked p')
      (hother : p'.linked.map (·.sources) ≠ some linked.sources) :
      Script g p p' (.upload g linked :: pending g ((Delivery.upload g linked).note p'))

/-- **A draw fails to link, or makes the deliveries of its script** until the device refuses one. -/
theorem draw_cases (h : ¬ Due g p → Settled p g) :
    (Due g p ∧ ∃ e p', (link g).run p = .error e p' ∧ ∀ {τ : Type} (device : Device τ) (d : τ),
      (draw device g).run (p, d) = .error e (p', d)) ∨
    ∃ q l, Script g p q l ∧ ∀ {τ : Type} (device : Device τ) (d : τ),
      (draw device g).run (p, d) = (Delivery.run device l).run (q, d) := by
  by_cases hdue : Due g p
  · cases hlink : (link g).run p with
    | error e p' =>
      refine .inl ⟨hdue, e, p', rfl, fun device d => ?_⟩
      rw [run_draw_of_due hdue, run_relink, hlink]
    | ok linked p' =>
      by_cases hsame : p'.linked.map (·.sources) = some linked.sources
      · have hdistinct := (settled_of_link hlink false (some g.generation)).distinct
        refine .inr ⟨_, _, .same hdue hlink hsame, fun device d => ?_⟩
        rw [run_draw_of_due hdue, run_relink, hlink]
        dsimp only
        rw [if_pos hsame]
        exact hdistinct.run_sendLinked.2 device d
      · have hdistinct :=
          ((settled_of_link hlink false (some g.generation)).withSent ∅).distinct
        refine .inr ⟨_, _, .upload hdue hlink hsame, fun device d => ?_⟩
        rw [run_draw_of_due hdue, run_relink, hlink]
        dsimp only
        rw [if_neg hsame]
        cases hdevice : device (.upload linked.uploaded.1 linked.uploaded.2) d with
        | ok d' =>
          rw [Delivery.run_cons_of_ok (x := .upload g linked) hdevice]
          exact hdistinct.run_sendLinked.2 device d'
        | error reason => rw [Delivery.run_cons_of_error (x := .upload g linked) hdevice]
  · refine .inr ⟨_, _, .idle hdue, fun device d => ?_⟩
    rw [run_draw_of_not_due hdue]
    exact (h hdue).distinct.run_sendLinked.2 device d

/-! ### Attempts -/

/-- **All that a draw sends to a device**, in order, whether it is taken or not. -/
def attempts (device : Device τ) (g : Graph) (p : Program) (d : τ) : List Attempt :=
  (stateAfter (draw device.noting g) (p, d, [])).2.2

/-- A draw that makes deliveries sends what these are sent. -/
theorem attempts_eq {l : List Delivery} (device : Device τ) (d : τ)
    (h : ∀ {τ : Type} (device : Device τ) (d : τ),
      (draw device g).run (p, d) = (Delivery.run device l).run (q, d)) :
    attempts device g p d = Delivery.attempted device l d := by
  rw [attempts, stateAfter, h]
  exact Delivery.log_run rfl

end Program

end ShaderLink
