import ShaderLink.Proofs.Program.History

/-!
# Draws send nothing twice

Whatever a draw sends is **warranted** by what has happened up to then (`Program.Warranted`):
sources are other than those that the device took last, and a value is not the one that the device
took last under the name. No name comes up twice in one draw. This holds after any number of draws
that the device refused in part, and whatever was done to the objects and the program between them
(`Chronicle.draw_warranted`).

Deliveries in turn are warranted because the program agrees with the log at each of them
(`Recorded.script`). A name does not come up again because a value that was just sent is on record.
-/

namespace ShaderLink

namespace Program

variable {g : Graph} {p p' q : Program} {l made more rest : List Delivery} {x : Delivery}
  {held : ObjectId → Prop} {log : List Entry} {id : ObjectId} {v : Variable} {name : String}

open Entry (lastUpload IsShown)

/-- **A reason to send an event**, in a draw that leads from one program to another. -/
inductive Warranted (g : Graph) (p p' : Program) (log : List Entry) : Event → Prop where
  /-- What the program is linked to are not the sources that the device took last. -/
  | upload {linked : Linked} {q : Program} {vertex fragment : String}
      (hlink : (link g).run p = .ok linked q)
      (hsources : linked.sources = ⟨some vertex, some fragment⟩)
      (hother : lastUpload log ≠ some (vertex, fragment)) :
      Warranted g p p' log (.upload vertex fragment)
  /-- The value of the variable that has the name is not what the device took last under the
  name. -/
  | value {id : ObjectId} {v : Variable} {name : String} {event : Event}
      (howner : p'.owner? name = some id) (hv : g.find? id = some (.var v))
      (hevent : valueEvent? v name = some event) (hshown : ¬ IsShown name id log) :
      Warranted g p p' log event

/-! ### Reasons -/

theorem IsPending.warranted (h : IsPending g p x) (hdistinct : p.Distinct)
    (hrecorded : Recorded held g p log) (howner : p'.owner? = p.owner?) :
    Warranted g q p' log x.event := by
  obtain ⟨id, v, name, event, hid, hv, hname, hevent, hsent, rfl⟩ := h
  refine .value (howner ▸ hdistinct.owner? hid hname) hv hevent fun hshown => hsent ?_
  exact (hrecorded.sent name id v hv).2 hshown

theorem InTurn.distinct (h : InTurn g p l) (hdistinct : p.Distinct) :
    (Delivery.noted p l).Distinct := by
  obtain ⟨sent, hsent⟩ := h.noted
  rw [hsent]
  exact hdistinct.withSent sent

theorem InTurn.warranted (h : InTurn g p (made ++ more ++ rest)) (hdistinct : p.Distinct)
    (hrecorded : Recorded held g (Delivery.noted p made) log) (hx : more ++ rest = x :: l) :
    Warranted g q (Delivery.noted p (made ++ more)) log x.event := by
  have hfirst := h.split.1
  rw [List.append_assoc, hx] at h
  obtain ⟨hmade, hrest⟩ := h.split
  cases hrest with
  | cons hpending _ =>
    exact hpending.warranted (hmade.distinct hdistinct) hrecorded
      (hfirst.owner?.trans hmade.owner?.symm)

/-- **A delivery of a script is warranted** once those before it have been made. -/
theorem Script.warranted (h : Script g p q (made ++ more ++ rest))
    (hrecorded : Recorded held g p log) (hsettled : ¬ Due g p → Settled p g)
    (hheld : ∀ x ∈ g.ids, held x) (hx : more ++ rest = x :: l) :
    Warranted g p (Delivery.noted q (made ++ more))
      ((Delivery.noted q (made ++ more)).logged (made.map Delivery.taken) log) x.event := by
  have hmade := hrecorded.script hsettled hheld h
  obtain hvalues | ⟨linked, values, hl, hsources⟩ := h.cases hsettled
  · exact hvalues.inTurn.warranted hvalues.distinct hmade hx
  · cases made with
    | nil =>
      -- the upload comes first
      rw [List.nil_append, hx] at hl
      obtain ⟨rfl, -⟩ := List.cons.inj hl
      have huploaded := uploaded_of_link hsources.link
      refine .upload hsources.link huploaded fun hlast => hsources.other ?_
      change lastUpload log = _ at hlast
      rw [(sameDrawn_of_link hsources.link).linked, hrecorded.uploaded, hlast, huploaded]
      rfl
    | cons y made =>
      obtain ⟨rfl, rfl⟩ := List.cons.inj hl
      exact hsources.inTurn.warranted hsources.distinct hmade hx

/-! ### Names -/

/-- A value that is on record is not among those that are pending in turn. -/
theorem InTurn.not_name (h : InTurn g p l) (hdistinct : p.Distinct) (hid : id ∈ p.emitted)
    (hv : g.find? id = some (.var v)) (hname : p.linker.names[id]? = some name)
    (hsent : p.sent[name]? = some (id, v.state)) : ∀ x ∈ l, x.event.name? ≠ some name := by
  induction h with
  | nil p => nofun
  | @cons p x l hpending _ ih =>
    obtain ⟨y, w, n, event, hy, hw, hn, hevent, hne, rfl⟩ := hpending
    have hother : n ≠ name := by
      rintro rfl
      obtain rfl := hdistinct.injective y hy id hid (hn.trans hname.symm)
      obtain rfl : w = v := by
        rw [hw] at hv
        cases hv
        rfl
      exact hne hsent
    intro z hz
    obtain rfl | hz := List.mem_cons.1 hz
    · intro hz
      exact hother (Option.some.inj ((name?_valueEvent? hevent).symm.trans hz))
    · refine ih (hdistinct.withSent _) hid hname ?_ z hz
      change (p.sent.insert n (y, w.state))[name]? = _
      rw [Std.ExtTreeMap.getElem?_insert, if_neg (by simpa using hother), hsent]

/-- **No name comes up twice** among values that are pending in turn. -/
theorem InTurn.nodup (h : InTurn g p l) (hdistinct : p.Distinct) :
    (l.filterMap (·.event.name?)).Nodup := by
  induction h with
  | nil p => exact List.nodup_nil
  | @cons p x l hpending hrest ih =>
    obtain ⟨id, v, name, event, hid, hv, hname, hevent, -, rfl⟩ := hpending
    have hrecord : ∀ x ∈ l, x.event.name? ≠ some name :=
      hrest.not_name (hdistinct.withSent _) hid hv hname Std.ExtTreeMap.getElem?_insert_self
    rw [List.filterMap_cons_some (f := fun x : Delivery => x.event.name?)
      (name?_valueEvent? hevent), List.nodup_cons]
    refine ⟨fun hmem => ?_, ih (hdistinct.withSent _)⟩
    obtain ⟨x, hx, hn⟩ := List.mem_filterMap.1 hmem
    exact hrecord x hx hn

theorem Script.nodup (h : Script g p q l) (hsettled : ¬ Due g p → Settled p g) :
    (l.filterMap (·.event.name?)).Nodup := by
  obtain hvalues | ⟨linked, values, rfl, hsources⟩ := h.cases hsettled
  · exact hvalues.inTurn.nodup hvalues.distinct
  · -- an upload has no name
    exact hsources.inTurn.nodup hsources.distinct

end Program

variable {k : Nat} {s : Scene} {q : Program} {made rest : List Delivery}
  {refuse : Event → Screen → Option String}

open Program

theorem Scene.Makes.nodup (h : s.Makes k refuse q made rest)
    (hsettled : ¬ Due (s.session.graphs k) s.program → Settled s.program (s.session.graphs k)) :
    ((s.attempts k refuse).filterMap (·.event.name?)).Nodup := by
  -- what is sent is the beginning of the script
  have hevents : (s.attempts k refuse).filterMap (·.event.name?) =
      (made ++ rest.head?.toList).filterMap (·.event.name?) := by
    have hsent := congrArg (List.filterMap Event.name?) (Delivery.events_sent made rest)
    rw [List.filterMap_map, List.filterMap_map] at hsent
    rw [h.attempts]
    exact hsent
  have hsublist : (made ++ rest.head?.toList).Sublist (made ++ rest) :=
    List.Sublist.append_left (by cases rest <;> simp) made
  rw [hevents]
  exact (h.script.nodup hsettled).sublist (hsublist.filterMap _)

/-- **Draws send nothing redundant.** In every scene of a chronicle, whatever a draw sends is
warranted by the log of what had happened by then: sources are sent only if the device did not take
them last, and a value only if what the device took last under the name is not that value of that
variable. No name comes up twice. -/
theorem Chronicle.draw_warranted (h : Chronicle k s) (refuse : Event → Screen → Option String) :
    (∀ before a after, s.attempts k refuse = before ++ a :: after →
      Warranted (s.session.graphs k) s.program (s.draw k refuse).program
        ((s.draw k refuse).program.logged before s.log) a.event) ∧
    ((s.attempts k refuse).filterMap (·.event.name?)).Nodup := by
  obtain ⟨e, p, hstops⟩ | ⟨q, made, rest, hmakes⟩ := s.draw_cases h.settled refuse
  · -- a draw that fails to link sends nothing
    rw [hstops.attempts]
    exact ⟨fun before a after hsent => absurd hsent (by simp), List.nodup_nil⟩
  · refine ⟨fun before a after hsent => ?_, hmakes.nodup h.settled⟩
    rw [hmakes.attempts] at hsent
    obtain ⟨first, more, x, last, rfl, hlast, rfl, ha⟩ := Delivery.sent_split hsent
    rw [hmakes.program, ha]
    exact hmakes.script.warranted h.recorded h.settled h.run.sound.tracks.complete hlast

/-! ### A number -/

/-- A scene with a function that returns a number, attached to a hook. -/
def levelScene (p : Program) : Scene :=
  (Scene.edited 0 ⟨.empty, fun _ => False, p, ⟨none, ∅⟩, []⟩ [.unassigned "level",
    .setValue ⟨1⟩ (.int 3), .function "int height() { return $level; }",
    .bind ⟨2⟩ "level" ⟨1⟩]).request 0 (.setHook "height" ⟨2⟩)

/-- The scene in which the number has been sent. -/
def levelSent (p : Program) : Scene := (levelScene p).draw 0 fun _ _ => none

/-- The scene in which the number has been set once more to what it was. -/
def levelSetAgain (p : Program) : Scene := (levelSent p).edited 0 [.setValue ⟨1⟩ (.int 3)]

/-- A second draw sends nothing. After the number has been set it is sent, though it is the one that
the device has. -/
theorem draw_warranted_level : ∃ p,
    ofCode .default "void main() {}" "int height();\nvoid main() { height(); }" = .ok p ∧
      Chronicle 0 (levelSetAgain p) ∧ (levelSent p).attempts 0 (fun _ _ => none) = [] ∧
      (levelSetAgain p).attempts 0 (fun _ _ => none) = [⟨.uniform "level" (.int 3), true⟩] ∧
      Warranted ((levelSetAgain p).session.graphs 0) (levelSetAgain p).program
        ((levelSetAgain p).draw 0 fun _ _ => none).program (levelSetAgain p).log
        (.uniform "level" (.int 3)) := by
  have hsent : (ofCode .default "void main() {}"
      "int height();\nvoid main() { height(); }").toOption.map (fun p =>
        ((levelSent p).attempts 0 fun _ _ => none, (levelSetAgain p).attempts 0 fun _ _ => none)) =
      some ([], [⟨.uniform "level" (.int 3), true⟩]) := by
    decide +kernel
  cases hp : ofCode .default "void main() {}" "int height();\nvoid main() { height(); }" with
  | error e =>
    rw [hp] at hsent
    cases hsent
  | ok p =>
    rw [hp] at hsent
    obtain ⟨hnothing, hnumber⟩ := Prod.mk.inj (Option.some.inj hsent)
    have hscene : Chronicle 0 (levelScene p) :=
      ((Chronicle.start ⟨none, ∅⟩ hp).edited _).move (.request _ _)
    have hagain : Chronicle 0 (levelSetAgain p) := (hscene.draw _).edited _
    exact ⟨p, rfl, hagain, hnothing, hnumber,
      (hagain.draw_warranted fun _ _ => none).1 [] _ [] hnumber⟩

end ShaderLink
