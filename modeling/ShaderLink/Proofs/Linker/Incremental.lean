import ShaderLink.Proofs.Linker.Naming
import ShaderLink.Proofs.Linker.Writing

/-!
# Linking is incremental

A linker is used again and again while its graph changes. A **trail** is a run of moves, each of
them recorded with the site at which it is made (`Linker.Trail`): actions of the session, linkings
that may fail, and objects that are forgotten. Nothing is added to the graph that it has held before.

An object that a linking emits is written by a later linking of the trail only if in the meantime its
revision was raised, or a move disturbed its definition, or, if it is a variable, a move introduced
an object that it refers to (`Linker.link_incremental`). A move **disturbs** a definition if it
forgets the object or one that it refers to, or calls one of these otherwise (`Linker.Disturbs`). It
**introduces** an object if it gives it its first name (`Linker.Introduces`). Functions and chains
need all that they refer to, so what they refer to has been introduced with them; a variable does not
need what it is linked to (`Linker.introduction_rewrites_variable`).

What carries the proof is that a definition stays **intact**: it is up to date, and unless the object
is a variable all that it refers to is held and named (`Linker.Intact`).
-/

namespace ShaderLink

/-- Whatever is no variable depends on all that it refers to. -/
theorem Object.mem_dependencies_of_reference {o : Object} {x : ObjectId} (h : x ∈ o.references)
    (hvar : ∀ v, o ≠ .var v) : x ∈ o.dependencies := by
  cases o with
  | var v => exact absurd rfl (hvar v)
  | function s => exact List.mem_append_right _ h
  | chain c => exact h
  | call c => exact h
  | text code => cases h

/-- What a needed object refers to is needed, unless the object is a variable. -/
theorem Closure.needs_of_refers {g : Graph} {stages : Stages StageMain} {x y : ObjectId}
    (h : g.Refers x y) (hx : Closure.Needs g stages x)
    (hvar : ∀ v, g.find? x ≠ some (.var v)) : Closure.Needs g stages y := by
  induction h with
  | direct ho hy =>
    exact hx.dependency ho (Object.mem_dependencies_of_reference hy fun v hv => hvar v (hv ▸ ho))
  | through ho hz hoz he _ ih =>
    refine ih (hx.dependency ho (Object.mem_dependencies_of_reference hz fun v hv =>
      hvar v (hv ▸ ho))) fun v hv => ?_
    -- what is written out is no variable
    rw [hoz] at hv
    rw [Option.some.inj hv] at he
    cases he

namespace Linker

open ShaderLink.Graph

/-! ### Trails -/

/-- Where a run is: a session, what one of its graphs has held so far, and a linker. -/
structure Site where
  session : Session
  held : ObjectId → Prop
  linker : Linker

/-- What a run does next. -/
inductive Move where
  | act (a : Session.Action)
  | link (stages : Stages StageMain)
  | forget (x : ObjectId)

/-- Where a run starts: from nothing, with a new linker. -/
def Site.start (settings : Settings) : Site := ⟨.empty, fun _ => False, new settings⟩

/-- The graph that is linked. -/
def Site.graph (k : Nat) (u : Site) : Graph := u.session.graphs k

namespace Move

/-- Nothing is added to the graph that it has held before. -/
def Allowed (k : Nat) (u : Site) : Move → Prop
  | act a => a.Possible u.session ∧ ∀ x, a.Adds k x → ¬ u.held x
  | link _ | forget _ => True

/-- The site after a move. -/
def perform (k : Nat) (u : Site) : Move → Site
  | act a =>
    { u with
      session := a.perform u.session
      held := fun x => u.held x ∨ x ∈ ((a.perform u.session).graphs k).ids }
  | link stages => { u with linker := stateAfter (Linker.link (u.graph k) stages) u.linker }
  | forget x => { u with linker := u.linker.forget (u.graph k) x }

end Move

/-- **A run of moves**, recorded with the sites at which they are made. -/
inductive Trail (k : Nat) (u : Site) : List (Site × Move) → Site → Prop where
  | stay : Trail k u [] u
  | move {log : List (Site × Move)} {v : Site} (h : Trail k u log v) (m : Move)
      (hm : m.Allowed k v) : Trail k u (log ++ [(v, m)]) (m.perform k v)

variable {k : Nat} {u v : Site} {m : Move} {log : List (Site × Move)} {x y : ObjectId} {r : Nat}
  {stages : Stages StageMain}

/-- What holds of every site of a trail. -/
structure Tracked (k : Nat) (u : Site) : Prop where
  tracks : u.session.Tracks k u.held
  exact : (u.graph k).Exact

theorem Tracked.move (h : Tracked k u) (hm : m.Allowed k u) : Tracked k (m.perform k u) := by
  cases m with
  | act a =>
    obtain ⟨new, -, hsteps⟩ := h.tracks.steps hm.1 hm.2
    exact ⟨h.tracks.act hm.1, Steps.exact hsteps h.exact⟩
  | link stages => exact ⟨h.tracks, h.exact⟩
  | forget x => exact ⟨h.tracks, h.exact⟩

theorem Trail.tracked (h : Trail k u log v) (hu : Tracked k u) : Tracked k v := by
  induction h with
  | stay => exact hu
  | move _ m hm ih => exact ih.move hm

/-- Steps that add nothing old leave references alone, and bring nothing back. -/
theorem Tracked.persists {g : Graph} {new : ObjectId → Prop} {flip : Prop} (h : Tracked k u)
    (hsteps : Steps new flip (u.graph k) g) (hnew : ∀ y, new y → ¬ u.held y) :
    Persists (u.graph k) g ∧ ∀ y, u.held y → y ∈ g.ids → y ∈ (u.graph k).ids := by
  refine ⟨Steps.persists hsteps h.exact.upTo fun y hy hn => ?_, fun y hheld hy => ?_⟩
  · exact hnew y hn (h.tracks.complete y hy)
  · by_contra hgone
    exact hnew y (Steps.born hsteps hgone hy) hheld

theorem tracked_start (settings : Settings) : Tracked k (.start settings) where
  tracks := Session.tracks_empty k
  exact := fun _ _ => rfl

/-! ### What changes definitions -/

/-- Whether a move calls an object otherwise than it was called. -/
def Renames (k : Nat) (p : Site × Move) (y : ObjectId) : Prop :=
  ∃ name name', p.1.linker.names[y]? = some name ∧
    (p.2.perform k p.1).linker.names[y]? = some name' ∧ name' ≠ name

/-- Whether a move names an object that had no name. -/
def NamesFirst (k : Nat) (p : Site × Move) (y : ObjectId) : Prop :=
  p.1.linker.names[y]? = none ∧ ∃ name, (p.2.perform k p.1).linker.names[y]? = some name

/-- **A disturbance of a definition**: the object is renamed or forgotten, or one that it refers to
is. -/
def Disturbs (k : Nat) (x : ObjectId) (p : Site × Move) : Prop :=
  ∃ y, (y = x ∨ (p.1.graph k).Refers x y) ∧ (Renames k p y ∨ p.2 = .forget y)

/-- **An introduction**: the object is a variable, and one that it refers to gets its first name. -/
def Introduces (k : Nat) (x : ObjectId) (p : Site × Move) : Prop :=
  (∃ v, (p.1.graph k).find? x = some (.var v)) ∧ ∃ y, (p.1.graph k).Refers x y ∧ NamesFirst k p y

/-! ### Definitions that stay -/

/-- **An intact definition**, written for a revision. -/
structure Intact (k : Nat) (x : ObjectId) (r : Nat) (u : Site) : Prop where
  revision : (u.graph k).revision x = .ok r
  upToDate : UpToDate (u.graph k) u.linker x
  named : (∀ v, (u.graph k).find? x ≠ some (.var v)) → ∀ y, (u.graph k).Refers x y →
    u.held y ∧ ((u.graph k).Emits y → ∃ name, u.linker.names[y]? = some name)

/-- **Linking writes no intact definition**, unless it disturbs it or introduces something to it. -/
theorem Intact.link (h : Intact k x r u) (hu : Tracked k u) (stages : Stages StageMain) :
    (Intact k x r ((Move.link stages).perform k u) ∧
        x ∉ ((Move.link stages).perform k u).linker.recompiled) ∨
      Disturbs k x (u, .link stages) ∨ Introduces k x (u, .link stages) := by
  obtain ⟨hupToDate, hunlisted⟩ | ⟨y, name, ⟨hemits, hname, hnew⟩, hyx⟩ :=
    upToDate_link hu.exact stages h.upToDate
  · refine .inl ⟨⟨h.revision, hupToDate, fun hvar y hy => ?_⟩, hunlisted⟩
    obtain ⟨hheld, hnamed⟩ := h.named hvar y hy
    refine ⟨hheld, fun hemits => ?_⟩
    obtain ⟨name, hname⟩ := hnamed hemits
    exact exists_name_link hname
  · refine .inr ?_
    cases hold : u.linker.names[y]? with
    | some old =>
      exact .inl ⟨y, hyx, .inl ⟨old, name, hold, hname, fun heq => hnew (heq ▸ hold)⟩⟩
    | none =>
      -- what is intact is named, and so is what it refers to unless it is a variable
      obtain rfl | hrefers := hyx
      · obtain ⟨_, old, -, hnamed, -⟩ := h.upToDate
        rw [hold] at hnamed
        cases hnamed
      · refine .inr ⟨?_, y, hrefers, hold, name, hname⟩
        by_contra hvar
        obtain ⟨old, hnamed⟩ := (h.named (fun v hv => hvar ⟨v, hv⟩) y hrefers).2 hemits
        rw [hold] at hnamed
        cases hnamed

/-- Forgetting leaves what is intact so, unless it disturbs it. -/
theorem Intact.forget (h : Intact k x r u) (hu : Tracked k u) (y : ObjectId) :
    Intact k x r ((Move.forget y).perform k u) ∨ Disturbs k x (u, .forget y) := by
  by_cases hyx : y = x ∨ (u.graph k).Refers x y
  · exact .inr ⟨y, hyx, .inr rfl⟩
  · obtain ⟨hne, hrefers⟩ := not_or.1 hyx
    refine .inl ⟨h.revision, upToDate_forget hu.exact h.upToDate hne hrefers, fun hvar z hz => ?_⟩
    obtain ⟨hheld, hnamed⟩ := h.named hvar z hz
    refine ⟨hheld, fun hemits => ?_⟩
    obtain ⟨name, hname⟩ := hnamed hemits
    have hyz : y ≠ z := fun hyz => hrefers (hyz ▸ hz)
    exact ⟨name, (names_forget hyz).trans hname⟩

/-- Steps that add nothing old leave what is intact so, as long as its revision stays. -/
theorem Intact.steps {u' : Site} {new : ObjectId → Prop} {flip : Prop} {n n' : Node}
    (h : Intact k x r u) (hu : Tracked k u) (hsteps : Steps new flip (u.graph k) (u'.graph k))
    (hnew : ∀ y, new y → ¬ u.held y) (hheld : ∀ y, u.held y → u'.held y)
    (hlinker : u'.linker = u.linker) (hn : (u.graph k).nodes[x]? = some n)
    (hn' : (u'.graph k).nodes[x]? = some n') (hrev : n'.revision = n.revision) :
    Intact k x r u' := by
  obtain ⟨hpersists, hback⟩ := hu.persists hsteps hnew
  have hrevision : (u.graph k).revision x = (u'.graph k).revision x := by
    rw [revision_eq_ok_iff.2 ⟨n, hn, rfl⟩, revision_eq_ok_iff.2 ⟨n', hn', rfl⟩, hrev]
  refine { revision := hrevision ▸ h.revision, upToDate := ?_, named := fun hvar y hy => ?_ }
  · obtain ⟨code, name, revision, hname, hr, hd⟩ := h.upToDate
    exact ⟨code, name, revision, hlinker ▸ hname, hrevision ▸ hr, hlinker ▸ hd⟩
  · have hvar₀ : ∀ v, (u.graph k).find? x ≠ some (.var v) := by
      intro v hv
      have hx : ¬ new x := fun hx => hnew x hx (hu.tracks.complete x (mem_ids_of_find? hv))
      obtain ⟨o, ho, hiff⟩ := Steps.isVariable hsteps hx (find?_of_node hn')
      rw [hv] at ho
      obtain ⟨w, hw⟩ := hiff.1 ⟨v, (Option.some.inj ho).symm⟩
      exact hvar w (hw ▸ find?_of_node hn')
    have hrefers := hy.of_persists hpersists hback (find?_of_node hn) (find?_of_node hn')
      (hpersists.references_eq hn hn' hrev.symm) fun z hz => (h.named hvar₀ z hz).1
    obtain ⟨hyheld, hnamed⟩ := h.named hvar₀ y hrefers
    refine ⟨hheld y hyheld, fun ⟨o', ho', he⟩ => ?_⟩
    -- what is emitted now was there before, and emitted
    obtain ⟨o, ho⟩ := mem_ids_iff.1 (hback y hyheld (mem_ids_of_find? ho'))
    rw [hlinker]
    exact hnamed ⟨o, ho, (hpersists.keepsText ho ho').1 ▸ he⟩

/-- What is known of an object once it has been emitted with some revision: it does not come back if
it goes, and while it is there its revision has been raised or its definition is intact. -/
structure Standing (k : Nat) (x : ObjectId) (r : Nat) (u : Site) : Prop where
  held : u.held x
  raised_or_intact : ∀ n, (u.graph k).nodes[x]? = some n → r < n.revision ∨ Intact k x r u

theorem Standing.act {a : Session.Action} (h : Standing k x r u) (hu : Tracked k u)
    (ha : (Move.act a).Allowed k u) : Standing k x r ((Move.act a).perform k u) where
  held := .inl h.held
  raised_or_intact := fun n' hn' => by
    obtain ⟨new, hnew, hsteps⟩ := hu.tracks.steps ha.1 ha.2
    obtain ⟨hpersists, hback⟩ := hu.persists hsteps hnew
    obtain ⟨n, hn⟩ := exists_node (hback x h.held (mem_ids_of_find? (find?_of_node hn')))
    have hle := hpersists.revision_le hn hn'
    obtain hraised | hintact := h.raised_or_intact n hn
    · exact .inl (Nat.lt_of_lt_of_le hraised hle)
    · obtain ⟨m, hm, hr⟩ := revision_eq_ok_iff.1 hintact.revision
      rw [hn] at hm
      obtain rfl := Option.some.inj hm
      obtain hlt | heq := Nat.lt_or_eq_of_le hle
      · exact .inl (hr ▸ hlt)
      · exact .inr (hintact.steps hu hsteps hnew (fun _ hy => .inl hy) rfl hn hn' heq.symm)

/-- **A move leaves an object standing**, unless it disturbs its definition or introduces something
to it. -/
theorem Standing.move (h : Standing k x r u) (hu : Tracked k u) (hm : m.Allowed k u) :
    Standing k x r (m.perform k u) ∨ Disturbs k x (u, m) ∨ Introduces k x (u, m) := by
  by_cases hchanged : Disturbs k x (u, m) ∨ Introduces k x (u, m)
  · exact .inr hchanged
  · refine .inl ?_
    cases m with
    | act a => exact h.act hu hm
    | link stages =>
      refine ⟨h.held, fun n hn => (h.raised_or_intact n hn).imp_right fun hintact => ?_⟩
      exact ((hintact.link hu stages).resolve_right hchanged).1
    | forget y =>
      refine ⟨h.held, fun n hn => (h.raised_or_intact n hn).imp_right fun hintact => ?_⟩
      exact (hintact.forget hu y).resolve_right fun hdisturbs => hchanged (.inl hdisturbs)

/-- **A trail leaves an object standing**, unless one of its moves does not. -/
theorem Trail.standing (h : Trail k u log v) (hu : Tracked k u) (hx : Standing k x r u) :
    Standing k x r v ∨ ∃ p ∈ log, Disturbs k x p ∨ Introduces k x p := by
  induction h with
  | stay => exact .inl hx
  | @move log v htrail m hm ih =>
    obtain hstanding | ⟨p, hp, hchanged⟩ := ih
    · refine (hstanding.move (htrail.tracked hu) hm).imp_right fun hchanged => ?_
      exact ⟨(v, m), by simp, hchanged⟩
    · exact .inr ⟨p, List.mem_append_left _ hp, hchanged⟩

/-- What a linking emits is intact afterwards. -/
theorem intact_of_link {linked : Linked} {l : Linker} (hu : Tracked k u)
    (hlink : (Linker.link (u.graph k) stages).run u.linker = .ok linked l)
    (hx : x ∈ linked.objects) : ∃ r, Intact k x r { u with linker := l } := by
  obtain ⟨-, -, -, -, -, hobjects, hreads⟩ := reads_of_link hlink
  obtain ⟨c, a, hc, ha, hnames, hlisted⟩ := naming_of_link hlink
  obtain ⟨name, r, hname, hrevision, hd⟩ := remembers_of_mem_objects hobjects hreads hx
  refine ⟨r, hrevision, ⟨_, name, r, hname, hrevision, hd⟩, fun hvar y hy => ?_⟩
  -- it is needed, so what it refers to is needed as well, and is there
  have hneeds := Closure.needs_of_refers hy ((hc.objects x).1 (hlisted ▸ hx)).1 hvar
  obtain ⟨o, ho⟩ := hc.present y hneeds
  refine ⟨hu.tracks.complete y (mem_ids_of_find? ho), fun hemits => ?_⟩
  rw [hnames]
  exact allNamed_of_ofClosure hc ha y ((hc.objects y).2 ⟨hneeds, hemits⟩)

/-- **Linking is incremental.** A linking writes no object twice. Of two linkings of one trail that
both emit an object, the later one writes it only if its revision was raised in the meantime, or it
was renamed or forgotten or something that it referred to was, or it was a variable and something
that it referred to got its first name. -/
theorem link_incremental {settings : Settings} {before between : List (Site × Move)} {s₁ s₂ : Site}
    {stages₁ stages₂ : Stages StageMain} {linked₁ linked₂ : Linked} {l₁ l₂ : Linker}
    (hbefore : Trail k (.start settings) before s₁)
    (hlink₁ : (Linker.link (s₁.graph k) stages₁).run s₁.linker = .ok linked₁ l₁)
    (hx₁ : x ∈ linked₁.objects)
    (hbetween : Trail k { s₁ with linker := l₁ } between s₂)
    (hlink₂ : (Linker.link (s₂.graph k) stages₂).run s₂.linker = .ok linked₂ l₂)
    (hx₂ : x ∈ linked₂.objects) :
    l₂.recompiled.count x ≤ 1 ∧ (x ∈ l₂.recompiled →
      (∃ r₁ r₂, (s₁.graph k).revision x = .ok r₁ ∧ (s₂.graph k).revision x = .ok r₂ ∧ r₁ < r₂) ∨
      ∃ p ∈ between ++ [(s₂, .link stages₂)], Disturbs k x p ∨ Introduces k x p) := by
  have hs₁ : Tracked k { s₁ with linker := l₁ } := by
    have htracked := hbefore.tracked (tracked_start settings)
    exact ⟨htracked.tracks, htracked.exact⟩
  have hs₂ := hbetween.tracked hs₁
  have hl₂ := stateAfter_eq_of_ok hlink₂
  refine ⟨List.nodup_iff_count_le_one.1 (hl₂ ▸ nodup_recompiled ..) x, fun hwritten => ?_⟩
  obtain ⟨r₁, hintact₁⟩ := intact_of_link (hbefore.tracked (tracked_start settings)) hlink₁ hx₁
  have hstanding₁ : Standing k x r₁ { s₁ with linker := l₁ } := by
    obtain ⟨n, hn, -⟩ := revision_eq_ok_iff.1 hintact₁.revision
    exact ⟨hs₁.tracks.complete x (mem_ids_of_find? (find?_of_node hn)), fun _ _ => .inr hintact₁⟩
  obtain hstanding₂ | ⟨p, hp, hchanged⟩ := hbetween.standing hs₁ hstanding₁
  · obtain ⟨c, -, hc, -, -, hlisted⟩ := naming_of_link hlink₂
    obtain ⟨-, o, ho, -⟩ := (hc.objects x).1 (hlisted ▸ hx₂)
    obtain ⟨n, hn, -⟩ := find?_eq_some_iff.1 ho
    obtain hraised | hintact₂ := hstanding₂.raised_or_intact n hn
    · exact .inl ⟨r₁, n.revision, hintact₁.revision, revision_eq_ok_iff.2 ⟨n, hn, rfl⟩, hraised⟩
    · -- what is intact would not have been written
      obtain ⟨-, hunlisted⟩ | hchanged := hintact₂.link hs₂ stages₂
      · exact absurd (show x ∈ (stateAfter (Linker.link (s₂.graph k) stages₂) _).recompiled from
          hl₂ ▸ hwritten) hunlisted
      · exact .inr ⟨_, by simp, hchanged⟩
  · exact .inr ⟨p, List.mem_append_left _ hp, hchanged⟩

/-! ### A variable and its link -/

/-- Edits of the graph are moves. -/
theorem Trail.edited (h : Trail k u log v) (ops : List Operation) :
    ∃ log' held, Trail k u log' ⟨v.session.edited k ops, held, v.linker⟩ := by
  induction ops generalizing log v with
  | nil => exact ⟨log, v.held, h⟩
  | cons op ops ih =>
    exact ih (h.move (.act (.edit k op))
      ⟨trivial, fun _ hadds => absurd hadds Session.Action.not_adds_edit⟩)

/-- In one graph an object has one revision. -/
theorem not_raised {g : Graph} :
    ¬ ∃ r₁ r₂, g.revision x = .ok r₁ ∧ g.revision x = .ok r₂ ∧ r₁ < r₂ := by
  rintro ⟨r₁, r₂, hr₁, hr₂, hlt⟩
  rw [hr₁] at hr₂
  exact absurd (Except.ok.inj hr₂) (Nat.ne_of_lt hlt)

/-- A session with a uniform and a varying that is linked to it. -/
def lampSession : Session :=
  Session.empty.edited 0 [.valued "lamp" (.int 3), .varying "v" none, .link ⟨2⟩ ⟨1⟩]

/-- The varying is linked alone and then together with the uniform, which is named then. Nothing that
has a name gets another. -/
theorem trail_lampSession : ∃ before s₁ linked₁ l₁ linked₂ l₂,
    Trail 0 (.start .default) before s₁ ∧
    (link (s₁.graph 0) (rootStages [⟨2⟩])).run s₁.linker = .ok linked₁ l₁ ∧
    linked₁.objects = [⟨2⟩] ∧
    (link (s₁.graph 0) (rootStages [⟨2⟩, ⟨1⟩])).run l₁ = .ok linked₂ l₂ ∧
    linked₂.objects = [⟨2⟩, ⟨1⟩] ∧ l₂.recompiled = [⟨2⟩, ⟨1⟩] ∧
    ¬ Disturbs 0 ⟨2⟩ ({ s₁ with linker := l₁ }, .link (rootStages [⟨2⟩, ⟨1⟩])) := by
  obtain ⟨before, held, htrail⟩ := Trail.edited (k := 0) (u := .start .default) .stay
    [.valued "lamp" (.int 3), .varying "v" none, .link ⟨2⟩ ⟨1⟩]
  have hseen₁ : observed? (link (lampSession.graphs 0) (rootStages [⟨2⟩])) (new .default)
      (fun linked l => (linked.objects, l.names.toList)) = some ([⟨2⟩], [(⟨2⟩, "v")]) := by
    decide +kernel
  have hseen₂ : observed? (link (lampSession.graphs 0) (rootStages [⟨2⟩, ⟨1⟩]))
      (stateAfter (link (lampSession.graphs 0) (rootStages [⟨2⟩])) (new .default))
      (fun linked l => (linked.objects, l.recompiled, l.names[(⟨2⟩ : ObjectId)]?)) =
      some ([⟨2⟩, ⟨1⟩], [⟨2⟩, ⟨1⟩], some "v") := by
    decide +kernel
  obtain ⟨linked₁, l₁, hlink₁, hview⟩ := exists_run_of_observed? hseen₁
  obtain ⟨hobjects₁, hnames₁⟩ := Prod.mk.inj hview
  rw [stateAfter_eq_of_ok hlink₁] at hseen₂
  obtain ⟨linked₂, l₂, hlink₂, hview⟩ := exists_run_of_observed? hseen₂
  obtain ⟨hobjects₂, hview⟩ := Prod.mk.inj hview
  obtain ⟨hrecompiled, hname⟩ := Prod.mk.inj hview
  refine ⟨before, _, linked₁, l₁, linked₂, l₂, htrail, hlink₁, hobjects₁, hlink₂, hobjects₂,
    hrecompiled, ?_⟩
  rintro ⟨y, -, ⟨old, new, hold, hnew, hne⟩ | hforget⟩
  · -- only the varying had a name, which it keeps
    have hmem := Std.ExtTreeMap.mem_toList_iff_getElem?_eq_some.2 hold
    rw [hnames₁, List.mem_singleton] at hmem
    obtain ⟨rfl, rfl⟩ := Prod.mk.inj hmem
    change (stateAfter (link (lampSession.graphs 0) (rootStages [⟨2⟩, ⟨1⟩])) l₁).names[_]? = _ at hnew
    rw [stateAfter_eq_of_ok hlink₂, hname] at hnew
    exact hne (Option.some.inj hnew).symm
  · cases hforget

/-- What rewrites the varying is that the uniform is introduced to it. -/
theorem link_incremental_lamp : ∃ before s₁ linked₁ l₁ linked₂ l₂,
    Trail 0 (.start .default) before s₁ ∧
    (link (s₁.graph 0) (rootStages [⟨2⟩])).run s₁.linker = .ok linked₁ l₁ ∧
    ⟨2⟩ ∈ linked₁.objects ∧
    Trail 0 { s₁ with linker := l₁ } [] { s₁ with linker := l₁ } ∧
    (link (s₁.graph 0) (rootStages [⟨2⟩, ⟨1⟩])).run l₁ = .ok linked₂ l₂ ∧
    ⟨2⟩ ∈ linked₂.objects ∧ l₂.recompiled.count ⟨2⟩ = 1 ∧
    Introduces 0 ⟨2⟩ ({ s₁ with linker := l₁ }, .link (rootStages [⟨2⟩, ⟨1⟩])) := by
  obtain ⟨before, s₁, linked₁, l₁, linked₂, l₂, htrail, hlink₁, hobjects₁, hlink₂, hobjects₂,
    hrecompiled, hundisturbed⟩ := trail_lampSession
  have hx₁ : ⟨2⟩ ∈ linked₁.objects := by simp [hobjects₁]
  have hx₂ : ⟨2⟩ ∈ linked₂.objects := by simp [hobjects₂]
  obtain ⟨honce, hcause⟩ := link_incremental htrail hlink₁ hx₁ .stay hlink₂ hx₂
  have hwritten : ⟨2⟩ ∈ l₂.recompiled := by simp [hrecompiled]
  refine ⟨before, s₁, linked₁, l₁, linked₂, l₂, htrail, hlink₁, hx₁, .stay, hlink₂, hx₂,
    Nat.le_antisymm honce (List.count_pos_iff.2 hwritten), ?_⟩
  obtain hraised | ⟨p, hp, hchanged⟩ := hcause hwritten
  · exact absurd hraised not_raised
  · obtain rfl := List.mem_singleton.1 hp
    exact hchanged.resolve_left hundisturbed

/-- **An introduction rewrites a variable** though nothing disturbs its definition: the name of what
it is linked to does not show in it. -/
theorem introduction_rewrites_variable : ∃ before s₁ linked₁ l₁ linked₂ l₂,
    Trail 0 (.start .default) before s₁ ∧
    (link (s₁.graph 0) (rootStages [⟨2⟩])).run s₁.linker = .ok linked₁ l₁ ∧
    ⟨2⟩ ∈ linked₁.objects ∧
    Trail 0 { s₁ with linker := l₁ } [] { s₁ with linker := l₁ } ∧
    (link (s₁.graph 0) (rootStages [⟨2⟩, ⟨1⟩])).run l₁ = .ok linked₂ l₂ ∧
    ⟨2⟩ ∈ linked₂.objects ∧ ⟨2⟩ ∈ l₂.recompiled ∧
    (¬ ∃ r₁ r₂, (s₁.graph 0).revision ⟨2⟩ = .ok r₁ ∧ (s₁.graph 0).revision ⟨2⟩ = .ok r₂ ∧ r₁ < r₂) ∧
    ∀ p ∈ ([] : List (Site × Move)) ++
      [({ s₁ with linker := l₁ }, .link (rootStages [⟨2⟩, ⟨1⟩]))], ¬ Disturbs 0 ⟨2⟩ p := by
  obtain ⟨before, s₁, linked₁, l₁, linked₂, l₂, htrail, hlink₁, hobjects₁, hlink₂, hobjects₂,
    hrecompiled, hundisturbed⟩ := trail_lampSession
  refine ⟨before, s₁, linked₁, l₁, linked₂, l₂, htrail, hlink₁, by simp [hobjects₁], .stay, hlink₂,
    by simp [hobjects₂], by simp [hrecompiled], not_raised, fun p hp => ?_⟩
  obtain rfl := List.mem_singleton.1 hp
  exact hundisturbed

end Linker

end ShaderLink
