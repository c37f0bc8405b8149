import ShaderLink.Proofs.Linker.Cache
import ShaderLink.Proofs.Store.Generation
import ShaderLink.Proofs.Store.Replacement

/-!
# Revisions as stamps

A linker uses a remembered definition again if the object has the name and the revision that the
definition was written with. It does not look at the object, so the revision has to be a stamp of
the definition.

It is one for as long as the object stays in its graph. Its revision never falls, and where it is
what it was, the object has been steady all the time, and so has everything that it carries a change
of (`Graph.Stamped`). Other objects may go and come back meanwhile: that is why the changes of a
history are not put together as a whole, but only what lasts through them (`Graph.Lasting`).

An object that is added has revision zero, whatever its revision was when it was removed. One that
comes back has revisions again that it has had, with another definition if it was edited before it
went (`Session.returned_function_keeps_no_stamp`). And where an object is added in the place of
another, nothing that the other showed in is raised.
-/

namespace ShaderLink

namespace Graph

variable {g g' g'' : Graph} {x : ObjectId}

/-- **A revision that stamps an object**: it never falls, and where it is what it was, the object
has lasted. -/
def Stamped (x : ObjectId) (g g' : Graph) : Prop :=
  ∀ n n' : Node, g.nodes[x]? = some n → g'.nodes[x]? = some n' →
    n.revision ≤ n'.revision ∧ (n.revision = n'.revision → ∃ p, p x ∧ Lasting p g g')

theorem Change.stamped (h : Change g g') : Stamped x g g' := by
  intro n n' hn hn'
  exact ⟨h.revision_le hn hn', fun heq => ⟨Steady g g', ⟨n, n', hn, hn', heq⟩, h.lasting⟩⟩

/-- Stamps compose as long as the object does not come back. -/
theorem Stamped.trans (h : Stamped x g g') (h' : Stamped x g' g'')
    (hback : x ∈ g''.ids → x ∈ g'.ids) : Stamped x g g'' := by
  intro n n'' hn hn''
  obtain ⟨n', hn'⟩ := exists_node (hback (mem_ids_of_find? (find?_of_node hn'')))
  obtain ⟨hle, hlasts⟩ := h n n' hn hn'
  obtain ⟨hle', hlasts'⟩ := h' n' n'' hn' hn''
  refine ⟨Nat.le_trans hle hle', fun heq => ?_⟩
  -- a revision that ends where it began was never raised
  obtain ⟨p, hp, hlasting⟩ := hlasts (by omega)
  obtain ⟨p', hp', hlasting'⟩ := hlasts' (by omega)
  exact ⟨fun y => p y ∧ p' y, ⟨hp, hp'⟩, hlasting.trans hlasting'⟩

/-- The texts and calls that show in an object are the same in two graphs. -/
def SameTexts (g g' : Graph) (x : ObjectId) : Prop :=
  ∀ y o o', g.Shows x y → g.find? y = some o → g'.find? y = some o' →
    o.emitted = false ∨ o'.emitted = false → o' = o

theorem SameTexts.writtenAlike {y : ObjectId} (h : SameTexts g g' x) (hy : g.Shows x y)
    (names : Names) : WrittenAlike g g' names names y where
  name := rfl
  keepsText := by
    intro o o' ho ho'
    have hsame := h y o o' hy ho ho'
    refine ⟨?_, fun he => hsame (.inl he)⟩
    -- where one of the two is written out they are the same, and otherwise both are emitted
    cases he : o.emitted with
    | false => rw [hsame (.inl he), he]
    | true =>
      cases he' : o'.emitted with
      | true => rfl
      | false =>
        rw [hsame (.inr he'), he] at he'
        cases he'

/-- **A stamped object has the same definition** wherever it has the same revision. -/
theorem Stamped.agree {r : Nat} {names : Names} (h : Stamped x g g') (hr : g.revision x = .ok r)
    (hr' : g'.revision x = .ok r) (hwf : g.AllWellFormed) (htexts : SameTexts g g' x) :
    Agree (g.definition? names x) (g'.definition? names x) := by
  obtain ⟨n, hn, rfl⟩ := revision_eq_ok_iff.1 hr
  obtain ⟨n', hn', heq⟩ := revision_eq_ok_iff.1 hr'
  obtain ⟨p, hp, hlasting⟩ := (h n n' hn hn').2 heq.symm
  exact agree_definition hlasting hp hwf rfl fun y hy => htexts.writtenAlike hy names

end Graph

/-- What a linker defines again is what it would write, if what it remembers with the present
revision is. -/
theorem Linker.outcome_define {g : Graph} {x : ObjectId} {l : Linker} {name : String} {r : Nat}
    {code : Option String} (hname : l.names[x]? = some name) (hr : g.revision x = .ok r)
    (hcode : g.definition? l.names x = .ok code)
    (hd : ∀ d, l.definitions[x]? = some d → d.revision = r → d.code = code.getD "") :
    outcome (define g x) l = .ok (code.getD "") := by
  have hrun := run_define (Graph.nameIn_eq_ok_iff.2 hname) hr
  cases hhit : l.definitions[x]?.filter fun d => d.name = name ∧ d.revision = r with
  | some d =>
    obtain ⟨hmem, hmatches⟩ := Option.filter_eq_some_iff.1 hhit
    rw [hhit] at hrun
    rw [outcome, hrun]
    exact congrArg Except.ok (hd d hmem (of_decide_eq_true hmatches).2)
  | none =>
    rw [hhit, hcode] at hrun
    rw [outcome, hrun]

namespace Session

variable {σ τ : Session} {k : Nat} {x : ObjectId} {a : Action} {rule : Session → Action → Prop}

/-! ### Histories that keep to a rule -/

/-- What happens to a session, action after action, where each keeps to a rule. -/
inductive HistoryBy (rule : Session → Action → Prop) (σ : Session) : Session → Prop where
  | refl : HistoryBy rule σ σ
  | act {τ : Session} (h : HistoryBy rule σ τ) (a : Action) (ha : a.Possible τ) (hrule : rule τ a) :
      HistoryBy rule σ (a.perform τ)

theorem HistoryBy.reachable (hτ : HistoryBy rule σ τ) (h : σ.Reachable) : τ.Reachable := by
  induction hτ with
  | refl => exact h
  | act _ a ha _ ih => exact .act ih a ha

/-- The rule that keeps an object from coming back: it is not added, and nothing is added in the
place of what is there. Neither is a zero put in the place of the other in a constant. -/
def Retains (k : Nat) (x : ObjectId) (σ : Session) (a : Action) : Prop :=
  ¬ a.FlipsZero σ k ∧ ∀ y, a.Adds k y → y ≠ x ∧ y ∉ (σ.graphs k).ids

/-- An action that adds nothing in the place of what is there changes no definition without raising
its revision. -/
theorem Retains.change (h : Retains k x σ a) (hσ : σ.Reachable) (ha : a.Possible σ) :
    Graph.Change (σ.graphs k) ((a.perform σ).graphs k) := by
  obtain ⟨extra, hexact⟩ := hσ.exists_exactUpTo k
  have hsteps := Action.steps hσ.lawful ha fun y hy => (h.2 y hy).2
  refine Graph.Steps.change hsteps h.1 hexact ?_
  -- what is there has an identifier that was handed out, and is not added
  rintro y hy (hfresh | hadds)
  · exact absurd ((hσ.lawful.store k).bounded y hy) (Nat.not_lt.2 hfresh)
  · exact (h.2 y hadds).2 hy

/-- The object does not come back. -/
theorem Retains.mem_ids (h : Retains k x σ a) (hσ : σ.Reachable) (ha : a.Possible σ)
    (hx : x.index < σ.fresh.index) (hx' : x ∈ ((a.perform σ).graphs k).ids) :
    x ∈ (σ.graphs k).ids := by
  by_contra hgone
  have hsteps := Action.steps hσ.lawful ha fun y hy => (h.2 y hy).2
  obtain hfresh | hadds := Graph.Steps.born hsteps hgone hx'
  · exact absurd hx (Nat.not_lt.2 hfresh)
  · exact (h.2 x hadds).1 rfl

/-- **A history stamps the objects that stay**, by one action after the other. -/
theorem HistoryBy.stamped (hτ : HistoryBy (Retains k x) σ τ) (h : σ.Reachable)
    (hx : x.index < σ.fresh.index) :
    x.index < τ.fresh.index ∧ Graph.Stamped x (σ.graphs k) (τ.graphs k) := by
  induction hτ with
  | refl => exact ⟨hx, (Graph.Change.refl _).stamped⟩
  | act hτ a ha hrule ih =>
    -- the identifier was handed out before the history began, so no edit makes an object with it
    obtain ⟨hlt, hstamped⟩ := ih
    have hreachable := hτ.reachable h
    refine ⟨Nat.lt_of_lt_of_le hlt (fresh_le_perform hreachable.lawful ha), ?_⟩
    exact hstamped.trans (hrule.change hreachable ha).stamped (hrule.mem_ids hreachable ha hlt)

/-- **A revision is a stamp of the definition** for as long as the object stays. Whatever else is
edited, removed and added: if an object is not removed and added itself, and nothing is added in the
place of what is there, then at two points at which it has the same revision it has the same
definition with the same names, if it has one at both and the texts and calls that show in it are
the same. A linker that remembers the first with the revision therefore serves the second. -/
theorem revision_stamps_definition (h : σ.Reachable) (hτ : HistoryBy (Retains k x) σ τ) {r : Nat}
    (hr : (σ.graphs k).revision x = .ok r) (hr' : (τ.graphs k).revision x = .ok r)
    (htexts : (σ.graphs k).SameTexts (τ.graphs k) x) {names : Names} {code code' : Option String}
    (hcode : (σ.graphs k).definition? names x = .ok code)
    (hcode' : (τ.graphs k).definition? names x = .ok code') :
    code' = code ∧ ∀ (l : Linker) (name : String), l.names = names → names[x]? = some name →
      (∀ d, l.definitions[x]? = some d → d.revision = r → d.code = code.getD "") →
      outcome (Linker.define (τ.graphs k) x) l = .ok (code'.getD "") := by
  obtain ⟨n, hn, -⟩ := Graph.revision_eq_ok_iff.1 hr
  have hx := (h.lawful.store k).bounded x (Graph.mem_ids_of_find? (Graph.find?_of_node hn))
  obtain ⟨-, hstamped⟩ := hτ.stamped h hx
  obtain rfl : code = code' :=
    hstamped.agree hr hr' (h.lawful.store k).wellFormed htexts code code' hcode hcode'
  refine ⟨rfl, ?_⟩
  rintro l name rfl hname hd
  exact Linker.outcome_define hname hr' hcode' hd

theorem retains_edit {op : Operation} (h : ¬ op.FlipsZero (σ.store k)) :
    Retains k x σ (.edit k op) :=
  ⟨Action.not_flipsZero_edit h, fun _ hadds => absurd hadds Action.not_adds_edit⟩

theorem retains_copy {j : Nat} {id : ObjectId} : Retains k x σ (.copy j id) :=
  ⟨fun ⟨_, hop, _⟩ => (nomatch hop), fun _ ⟨_, ho⟩ => (nomatch ho)⟩

theorem retains_alter {id : ObjectId} {old new : Object} : Retains k x σ (.alter id old new) :=
  ⟨fun ⟨_, hop, _⟩ => (nomatch hop), fun _ ⟨_, ho⟩ => (nomatch ho)⟩

theorem retains_add {id : ObjectId} {o : Object} (hid : id ≠ x) (habsent : id ∉ (σ.graphs k).ids) :
    Retains k x σ (.add k id o) := by
  refine ⟨fun ⟨_, hop, _⟩ => (nomatch hop), ?_⟩
  rintro y ⟨o', ho'⟩
  cases ho'
  exact ⟨hid, habsent⟩

/-- A function with a variable and a text bound to it. -/
def stampedSession : Session :=
  empty.edited 0 [.function "float $f() { return $a * $b; }", .valued "level" (.int 3), .text "2.0",
    .bind ⟨1⟩ "a" ⟨2⟩, .bind ⟨1⟩ "b" ⟨3⟩]

/-- The variable with a value of another type. -/
def retypedVariable : Variable := { Variable.ofValue "level" (.bool true) with state := 1 }

/-- The variable is copied and removed, the copy is given a value of another type, and is added. -/
def retypedSession : Session :=
  (Action.add 0 ⟨2⟩ (.var retypedVariable)).perform
    ((Action.alter ⟨2⟩ (.var (.ofValue "level" (.int 3))) (.var retypedVariable)).perform
      ((Action.edit 0 (.remove ⟨2⟩)).perform ((Action.copy 0 ⟨2⟩).perform stampedSession)))

/-- Names for the function and the variable. -/
def stampedNames : Names := ((∅ : Names).insert ⟨1⟩ "f").insert ⟨2⟩ "u"

theorem history_retypedSession : HistoryBy (Retains 0 ⟨1⟩) stampedSession retypedSession := by
  have hcopy : HistoryBy (Retains 0 ⟨1⟩) stampedSession _ :=
    .act .refl (.copy 0 ⟨2⟩) trivial retains_copy
  have hremove := hcopy.act (.edit 0 (.remove ⟨2⟩)) trivial (retains_edit id)
  -- the copy is the variable as it was
  have hloose : (⟨2⟩, .var (.ofValue "level" (.int 3))) ∈ ((Action.edit 0 (.remove ⟨2⟩)).perform
      ((Action.copy 0 ⟨2⟩).perform stampedSession)).loose := by decide +kernel
  have hvalue : (Variable.ofValue "level" (.int 3)).setValue (.bool true) =
      .ok (retypedVariable, true) := by decide +kernel
  have halter := hremove.act (.alter ⟨2⟩ _ (.var retypedVariable)) ⟨hloose, .setValue hvalue⟩
    retains_alter
  exact halter.act (.add 0 ⟨2⟩ (.var retypedVariable)) List.mem_cons_self
    (retains_add (by decide) (by decide +kernel))

theorem sameTexts_retypedSession :
    (stampedSession.graphs 0).SameTexts (retypedSession.graphs 0) ⟨1⟩ := by
  have hfunction : ((stampedSession.graphs 0).find? ⟨1⟩).map Object.shown = some [⟨2⟩, ⟨3⟩] := by
    decide +kernel
  have hvariable : ((stampedSession.graphs 0).find? ⟨2⟩).map Object.emitted = some true ∧
      ((retypedSession.graphs 0).find? ⟨2⟩).map Object.emitted = some true := by decide +kernel
  have htext : (stampedSession.graphs 0).find? ⟨3⟩ = some (.text "2.0") ∧
      (retypedSession.graphs 0).find? ⟨3⟩ = some (.text "2.0") := by decide +kernel
  have hshown : ∀ {o y}, (stampedSession.graphs 0).find? ⟨1⟩ = some o → y ∈ o.shown →
      y = ⟨2⟩ ∨ y = ⟨3⟩ := by
    intro o y ho hy
    rw [ho] at hfunction
    rw [Option.some.inj hfunction] at hy
    simpa using hy
  intro y o o' hy ho ho' he
  obtain rfl | rfl : y = ⟨2⟩ ∨ y = ⟨3⟩ := by
    cases hy with
    | direct hf hy => exact hshown hf hy
    | through hf hz hoz hout hzy =>
      -- only the text is written out, and nothing shows in that
      obtain rfl | rfl := hshown hf hz
      · rw [hoz] at hvariable
        rw [Option.some.inj hvariable.1] at hout
        cases hout
      · rw [htext.1] at hoz
        cases hzy with
        | direct ht hy => rw [htext.1] at ht; cases ht; cases hy
        | through ht hw => rw [htext.1] at ht; cases ht; cases hw
  · rw [ho, ho'] at hvariable
    -- the variable is emitted in both
    obtain he | he := he
    · exact absurd (Option.some.inj hvariable.1) (by simp [he])
    · exact absurd (Option.some.inj hvariable.2) (by simp [he])
  · rw [htext.1] at ho
    rw [htext.2] at ho'
    cases ho
    cases ho'
    rfl

/-- The function keeps its revision and its definition, though the variable is another. -/
theorem revision_stamps_definition_retyped :
    stampedSession.Reachable ∧ HistoryBy (Retains 0 ⟨1⟩) stampedSession retypedSession ∧
    (stampedSession.graphs 0).revision ⟨1⟩ = .ok 2 ∧
    (retypedSession.graphs 0).revision ⟨1⟩ = .ok 2 ∧
    (stampedSession.graphs 0).find? ⟨2⟩ ≠ (retypedSession.graphs 0).find? ⟨2⟩ ∧
    (stampedSession.graphs 0).definition? stampedNames ⟨1⟩ =
      .ok (some "float f() { return u * 2.0; }") ∧
    (retypedSession.graphs 0).definition? stampedNames ⟨1⟩ =
      .ok (some "float f() { return u * 2.0; }") := by
  have hany : ReachableBy (fun _ _ => True) stampedSession :=
    ReachableBy.empty.edited fun _ _ _ => trivial
  -- evaluation shows that there is a definition, and that it is the same follows from the revision
  obtain ⟨hr, hr', hcode, hdefined, hvariable⟩ :
      (stampedSession.graphs 0).revision ⟨1⟩ = .ok 2 ∧
      (retypedSession.graphs 0).revision ⟨1⟩ = .ok 2 ∧
      (stampedSession.graphs 0).definition? stampedNames ⟨1⟩ =
        .ok (some "float f() { return u * 2.0; }") ∧
      ((retypedSession.graphs 0).definition? stampedNames ⟨1⟩).toOption.isSome ∧
      (stampedSession.graphs 0).find? ⟨2⟩ ≠ (retypedSession.graphs 0).find? ⟨2⟩ := by decide +kernel
  obtain ⟨code', hcode'⟩ : ∃ code',
      (retypedSession.graphs 0).definition? stampedNames ⟨1⟩ = .ok code' := by
    cases hd : (retypedSession.graphs 0).definition? stampedNames ⟨1⟩ with
    | ok code' => exact ⟨code', rfl⟩
    | error e => rw [hd] at hdefined; cases hdefined
  obtain ⟨rfl, -⟩ := revision_stamps_definition hany.reachable history_retypedSession hr hr'
    sameTexts_retypedSession hcode hcode'
  exact ⟨hany.reachable, history_retypedSession, hr, hr', hvariable, hcode, hcode'⟩

/-! ### Objects that come back -/

/-- A function. -/
def constantSession : Session :=
  empty.edited 0 [.function "float $f() { return 1.0; }"]

/-- The function with another text in its code. -/
def replacedSnippet : Snippet where
  code := "float $f() { return 1.0; }"
  signature := { name := "f", anonymous := true, arguments := [], result := "float" }
  template := Template.parse "float $f() { return 2.0; }"
  placeholders := []
  staticNames := []
  bindings := ∅
  requires := []
  replacements := [("1.0", "2.0")]

/-- The function is edited, copied and removed, and the copy is added. -/
def readdedSession : Session :=
  (Action.add 0 ⟨1⟩ (.function replacedSnippet)).perform
    ((Action.edit 0 (.remove ⟨1⟩)).perform ((Action.copy 0 ⟨1⟩).perform
      ((Action.edit 0 (.replace ⟨1⟩ "1.0" "2.0")).perform constantSession)))

theorem history_readdedSession :
    HistoryBy (fun σ a => ¬ a.FlipsZero σ 0) constantSession readdedSession := by
  have hreplace : HistoryBy (fun σ a => ¬ a.FlipsZero σ 0) constantSession _ :=
    .act .refl (.edit 0 (.replace ⟨1⟩ "1.0" "2.0")) trivial (Action.not_flipsZero_edit id)
  have hcopy := hreplace.act (.copy 0 ⟨1⟩) trivial fun ⟨_, hop, _⟩ => nomatch hop
  have hremove := hcopy.act (.edit 0 (.remove ⟨1⟩)) trivial (Action.not_flipsZero_edit id)
  refine hremove.act (.add 0 ⟨1⟩ (.function replacedSnippet)) ?_ fun ⟨_, hop, _⟩ => nomatch hop
  show (_, _) ∈ Session.loose _
  decide +kernel

/-- **A function that comes back has a revision that it has had.** It was edited in between, so the
two definitions differ, and a linker that remembers the first one serves it for the second. -/
theorem returned_function_keeps_no_stamp :
    constantSession.Reachable ∧
    HistoryBy (fun σ a => ¬ a.FlipsZero σ 0) constantSession readdedSession ∧
    (constantSession.graphs 0).revision ⟨1⟩ = .ok 0 ∧
    (readdedSession.graphs 0).revision ⟨1⟩ = .ok 0 ∧
    (∀ y, ¬ (constantSession.graphs 0).Shows ⟨1⟩ y) ∧
    (constantSession.graphs 0).definition? stampedNames ⟨1⟩ =
      .ok (some "float f() { return 1.0; }") ∧
    (readdedSession.graphs 0).definition? stampedNames ⟨1⟩ =
      .ok (some "float f() { return 2.0; }") ∧
    let l := { Linker.new .default with names := stampedNames }
    outcome (do
      let _ ← Linker.define (constantSession.graphs 0) ⟨1⟩
      Linker.define (readdedSession.graphs 0) ⟨1⟩) l = .ok "float f() { return 1.0; }" := by
  have hany : ReachableBy (fun _ _ => True) constantSession :=
    ReachableBy.empty.edited fun _ _ _ => trivial
  have hfunction : ((constantSession.graphs 0).find? ⟨1⟩).map Object.shown = some [] := by
    decide +kernel
  refine ⟨hany.reachable, history_readdedSession, by decide +kernel, by decide +kernel, ?_,
    by decide +kernel⟩
  rintro y (⟨hf, hy⟩ | ⟨hf, hy⟩) <;>
  · rw [hf] at hfunction
    rw [Option.some.inj hfunction] at hy
    cases hy

end Session

end ShaderLink
