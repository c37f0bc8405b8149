import ShaderLink.Proofs.Glsl.Shape
import ShaderLink.Proofs.Program.Coherence

/-!
# Checking the hooks of a program

The hooks of a program are the prototypes of its two codes, and stay so whatever is asked of it and
however it is drawn; objects are attached only to hooks that there are (`Program.Reached.keepsHooks`).
So each attached object is compared with the one prototype that its hook was found as, and comparing
printed types is comparing types (`Glsl.shape_inj`): the check of the hooks is exact
(`Program.checkHooks_exact`).
-/

namespace ShaderLink

/-- The hook is a prototype in the code of its stage. -/
def Hook.DeclaredIn (vertex fragment : String) (h : Hook) : Prop :=
  h.prototype ∈ Prototype.findAll (match h.stage with
    | .vertex => vertex
    | .fragment => fragment).toList

namespace Program

variable {settings : Settings} {vertex fragment hook : String} {p p' p'' : Program} {g : Graph}
  {h : Hook} {stage : Stage} {hooks hooks' : Std.ExtTreeMap String Hook} {τ : Type}

/-! ### Hooks are prototypes -/

/-- Adding prototypes adds these, each under its name, and nothing else. -/
theorem getElem?_of_addHooks {l : List Prototype} (hadd : addHooks stage hooks l = .ok hooks') :
    hooks'[hook]? = some h ↔ hooks[hook]? = some h ∨
      h.stage = stage ∧ h.prototype ∈ l ∧ h.prototype.name = hook := by
  induction l generalizing hooks with
  | nil =>
    obtain rfl : hooks = hooks' := Except.ok.inj hadd
    simp
  | cons q l ih =>
    rw [addHooks] at hadd
    split at hadd
    · cases hadd
    · next hfree =>
      rw [ih hadd, Std.ExtTreeMap.getElem?_insert]
      by_cases hname : q.name = hook
      · subst hname
        have hnone : hooks[q.name]? = none :=
          Std.ExtTreeMap.getElem?_eq_none_of_contains_eq_false (Bool.eq_false_iff.2 hfree)
        rw [if_pos (by simp), hnone]
        constructor
        · rintro (hq | ⟨hstage, hmem, hname⟩)
          · obtain rfl := Option.some.inj hq
            exact .inr ⟨rfl, List.mem_cons_self, rfl⟩
          · exact .inr ⟨hstage, List.mem_cons_of_mem _ hmem, hname⟩
        · rintro (hq | ⟨rfl, hmem, hname⟩)
          · cases hq
          · obtain hq | hmem := List.mem_cons.1 hmem
            · exact .inl (by rw [← hq])
            · exact .inr ⟨rfl, hmem, hname⟩
      · have hne : ¬ compare q.name hook = .eq := by simpa using hname
        rw [if_neg hne]
        refine or_congr_right (and_congr_right fun _ => and_congr_left fun hh => ?_)
        rw [List.mem_cons, or_iff_right]
        rintro rfl
        exact hname hh

/-- **The hooks of a new program** are the prototypes of its codes, each under its name. -/
theorem getElem?_hooks_of_ofCode (hp : ofCode settings vertex fragment = .ok p) :
    p.hooks[hook]? = some h ↔ h.DeclaredIn vertex fragment ∧ h.prototype.name = hook := by
  obtain ⟨_, _, vertexHooks, hooks, hvertex, hfragment, rfl⟩ := of_ofCode hp
  rw [getElem?_of_addHooks hfragment, getElem?_of_addHooks hvertex]
  obtain ⟨stage, prototype⟩ := h
  cases stage <;> simp [Hook.DeclaredIn]

/-! ### What keeps the hooks -/

/-- The hooks are the same, and what is attached is attached at one of them or was attached. -/
structure KeepsHooks (p p' : Program) : Prop where
  hooks : p'.hooks = p.hooks
  attached : ∀ hook, p'.attached.contains hook = true →
    p.attached.contains hook = true ∨ p.hooks.contains hook = true

theorem KeepsHooks.refl (p : Program) : KeepsHooks p p := ⟨rfl, fun _ => .inl⟩

theorem KeepsHooks.trans (h : KeepsHooks p p') (h' : KeepsHooks p' p'') : KeepsHooks p p'' where
  hooks := h'.hooks.trans h.hooks
  attached := fun hook hattached =>
    (h'.attached hook hattached).elim (h.attached hook) fun hhook => .inr (h.hooks ▸ hhook)

theorem keepsHooks_of_eq (hhooks : p'.hooks = p.hooks) (hattached : p'.attached = p.attached) :
    KeepsHooks p p' :=
  ⟨hhooks, fun _ h => .inl (hattached ▸ h)⟩

theorem keepsHooks_link (p : Program) (g : Graph) : KeepsHooks p (stateAfter (link g) p) := by
  obtain ⟨l, hl⟩ := stateAfter_link p g
  rw [hl]
  exact keepsHooks_of_eq rfl rfl

end Program

/-! ### Requests -/

theorem Workspace.Step.keepsHooks {w w' : Workspace} (h : w.Step w') :
    w.program.KeepsHooks w'.program := by
  cases h with
  | attach hook object hhook =>
    refine ⟨rfl, fun hook' h => ?_⟩
    rw [withProgram, Program.attach, Std.ExtTreeMap.contains_insert, Bool.or_eq_true] at h
    refine h.symm.imp_right fun hsame => ?_
    obtain rfl : hook = hook' := by simpa using hsame
    exact hhook
  | free hook =>
    refine ⟨rfl, fun hook' h => .inl ?_⟩
    rw [withProgram, Program.free, Std.ExtTreeMap.contains_erase, Bool.and_eq_true] at h
    exact h.2
  | detach object _ =>
    unfold withProgram Program.detach
    split <;> exact Program.keepsHooks_of_eq rfl rfl
  | output m stage => cases stage <;> exact Program.keepsHooks_of_eq rfl rfl
  | _ => exact Program.keepsHooks_of_eq rfl rfl

/-- **Requests keep the hooks of a program.** -/
theorem Request.keepsHooks (r : Request) (w : Workspace) :
    w.program.KeepsHooks (r.perform w).program := by
  by_cases hr : r = .link
  · subst hr
    change w.program.KeepsHooks (stateAfter (Workspace.onProgram _) w).program
    rw [Workspace.stateAfter_onProgram]
    exact Program.keepsHooks_link w.program w.store.graph
  · exact (r.begun hr w).induction (P := fun u => w.program.KeepsHooks u.program)
      (.refl w.program) (fun _ => .refl w.program) fun hstep hkept => hkept.trans hstep.keepsHooks

namespace Program

variable {settings : Settings} {vertex fragment hook : String} {p p' : Program} {g : Graph}
  {τ : Type}

/-! ### Draws -/

theorem keepsHooks_sendValue (device : Device τ) (g : Graph) (id : ObjectId) (s : Program × τ) :
    KeepsHooks s.1 (stateAfter (sendValue device g id) s).1 := by
  obtain ⟨p, d⟩ := s
  by_cases hsent : IsSent g p id
  · rw [stateAfter_eq_of_ok (run_sendValue_of_isSent hsent device d)]
    exact .refl p
  · obtain ⟨v, name, event, hv, hname, hevent, hne⟩ := exists_of_not_isSent hsent
    rw [stateAfter, run_sendValue hv hname hevent hne]
    cases device event d with
    | ok d => exact keepsHooks_of_eq rfl rfl
    | error reason => exact .refl p

theorem keepsHooks_sendLinked (device : Device τ) (g : Graph) (p : Program) (s : Program × τ) :
    KeepsHooks s.1 (stateAfter (sendLinked device g p) s).1 := by
  have hall : ∀ (ids : List ObjectId) (s : Program × τ),
      KeepsHooks s.1 (stateAfter (ids.forM (sendValue device g)) s).1 := by
    intro ids
    induction ids with
    | nil => exact fun s => .refl s.1
    | cons id ids ih =>
      intro s
      exact stateAfter_bind_rel (r := fun s t : Program × τ => KeepsHooks s.1 t.1)
        KeepsHooks.trans (keepsHooks_sendValue device g id s) fun _ t _ => ih t
  unfold sendLinked
  cases p.linked with
  | some linked => exact hall linked.objects s
  | none => exact .refl s.1

theorem keepsHooks_relink (device : Device τ) (g : Graph) (s : Program × τ) :
    KeepsHooks s.1 (stateAfter (relink device g) s).1 := by
  obtain ⟨p, d⟩ := s
  have hlink := keepsHooks_link p g
  rw [stateAfter, run_relink]
  cases hrun : (link g).run p with
  | error e p' =>
    rw [stateAfter_eq_of_error hrun] at hlink
    exact hlink
  | ok linked p' =>
    rw [stateAfter_eq_of_ok hrun] at hlink
    have hdrawn : KeepsHooks p (p'.drawn g linked) := hlink.trans (keepsHooks_of_eq rfl rfl)
    dsimp only
    by_cases hsame : p'.linked.map (·.sources) = some linked.sources
    · rw [if_pos hsame]
      exact hdrawn
    · rw [if_neg hsame]
      cases device (.upload linked.uploaded.1 linked.uploaded.2) d with
      | ok d => exact hdrawn.trans (keepsHooks_of_eq rfl rfl)
      | error reason => exact hlink

/-- **Draws keep the hooks of a program.** -/
theorem keepsHooks_draw (device : Device τ) (g : Graph) (s : Program × τ) :
    KeepsHooks s.1 (stateAfter (draw device g) s).1 := by
  obtain ⟨p, d⟩ := s
  have hrelink := keepsHooks_relink device g (p, d)
  rw [stateAfter, run_draw]
  by_cases hdue : p.dirty ∨ p.generation ≠ some g.generation
  · rw [if_pos hdue]
    cases hrun : (relink device g).run (p, d) with
    | error e t =>
      rw [stateAfter_eq_of_error hrun] at hrelink
      exact hrelink
    | ok _ t =>
      rw [stateAfter_eq_of_ok hrun] at hrelink
      exact hrelink.trans (keepsHooks_sendLinked device g t.1 t)
  · rw [if_neg hdue]
    exact keepsHooks_sendLinked device g p (p, d)

/-! ### All states of a program -/

/-- **The states of a program**: it is made of the codes of its stages, and then anything is asked of
it and it is drawn any number of times, together with any stores and on any devices. -/
inductive Reached (settings : Settings) (vertex fragment : String) : Program → Prop where
  | start {p : Program} (h : ofCode settings vertex fragment = .ok p) :
      Reached settings vertex fragment p
  | request {p : Program} (h : Reached settings vertex fragment p) (store : Store) (r : Request) :
      Reached settings vertex fragment (r.perform ⟨p, store⟩).program
  | draw {p : Program} (h : Reached settings vertex fragment p) {τ : Type} (device : Device τ)
      (g : Graph) (d : τ) : Reached settings vertex fragment (stateAfter (draw device g) (p, d)).1

/-- **In every state of a program** its hooks are those that it was made with, and nothing is
attached but at hooks. -/
theorem Reached.keepsHooks (h : Reached settings vertex fragment p) :
    ∃ p₀, ofCode settings vertex fragment = .ok p₀ ∧ p.hooks = p₀.hooks ∧
      ∀ hook, p.attached.contains hook = true → p.hooks.contains hook = true := by
  have hstep : ∀ {p₀ p p' : Program}, KeepsHooks p p' → p.hooks = p₀.hooks ∧
      (∀ hook, p.attached.contains hook = true → p.hooks.contains hook = true) →
      p'.hooks = p₀.hooks ∧
        ∀ hook, p'.attached.contains hook = true → p'.hooks.contains hook = true := by
    rintro p₀ p p' hkeeps ⟨hhooks, hattached⟩
    refine ⟨hkeeps.hooks.trans hhooks, fun hook h => ?_⟩
    rw [hkeeps.hooks]
    exact (hkeeps.attached hook h).elim (hattached hook) id
  induction h with
  | start h =>
    refine ⟨_, h, rfl, fun hook hattached => ?_⟩
    obtain ⟨_, _, _, _, -, -, rfl⟩ := of_ofCode h
    simp at hattached
  | request _ store r ih =>
    obtain ⟨p₀, hp₀, hkept⟩ := ih
    exact ⟨p₀, hp₀, hstep (r.keepsHooks ⟨_, store⟩) hkept⟩
  | draw _ device g d ih =>
    obtain ⟨p₀, hp₀, hkept⟩ := ih
    exact ⟨p₀, hp₀, hstep (keepsHooks_draw device g (_, d)) hkept⟩

/-- In every state of a program, its hooks are the prototypes of its codes, each under its name. -/
theorem Reached.getElem?_hooks (hp : Reached settings vertex fragment p) {h : Hook} :
    p.hooks[hook]? = some h ↔ h.DeclaredIn vertex fragment ∧ h.prototype.name = hook := by
  obtain ⟨p₀, hp₀, hhooks, -⟩ := hp.keepsHooks
  rw [hhooks, getElem?_hooks_of_ofCode hp₀]

/-! ### The check -/

/-- A hook is matched by an object of exactly its types. -/
def Matches (g : Graph) (h : Hook) (object : ObjectId) : Prop :=
  ∃ s, g.signature? object = some s ∧ s.result = h.prototype.result ∧
    s.arguments.map (·.type) = h.prototype.argumentTypes

theorem checkAttached_eq_ok_iff {l : List (String × ObjectId)} :
    p.checkAttached g l = .ok () ↔ ∀ a ∈ l, ∀ h, p.hooks[a.1]? = some h →
      ((g.signature? a.2).map Signature.shape).getD shapeOfOther = h.prototype.shape := by
  induction l with
  | nil => simp [checkAttached]
  | cons a l ih =>
    obtain ⟨hook, object⟩ := a
    rw [List.forall_mem_cons, ← ih, checkAttached]
    cases hhook : p.hooks[hook]? with
    | none => simp
    | some h =>
      dsimp only
      split
      · next hsame => simpa using fun _ => hsame
      · next hdiffer =>
        exact iff_of_false (by simp) fun hall => hdiffer (hall.1 h rfl)

/-- What is printed of an object is what is printed of a hook only if the object has its types. -/
theorem printed_eq_iff (hg : g.All fun _ => Object.Readable) {h : Hook}
    (hread : h.prototype.Readable) {object : ObjectId} :
    ((g.signature? object).map Signature.shape).getD shapeOfOther = h.prototype.shape ↔
      Matches g h object := by
  cases hs : g.signature? object with
  | none =>
    have hother : '(' ∉ shapeOfOther.toList := by decide
    refine iff_of_false (fun hsame => ?_) fun ⟨s, hs', _⟩ => ?_
    · have hsame : shapeOfOther = h.prototype.shape := hsame
      rw [hsame] at hother
      exact hother (Glsl.mem_shape_parenthesis _ _)
    · rw [hs] at hs'
      cases hs'
  | some s =>
    obtain ⟨o, ho, hsignature⟩ := Option.bind_eq_some_iff.1 hs
    have hsame : s.shape = h.prototype.shape ↔ _ :=
      Signature.shape_eq_iff (hg object o ho s hsignature) hread
    refine hsame.trans ⟨fun htypes => ⟨s, hs, htypes⟩, fun ⟨s', hs', htypes⟩ => ?_⟩
    rw [hs] at hs'
    exact Option.some.inj hs' ▸ htypes

/-- **The check of the hooks is exact.**

In every state of a program and with every graph of a session, the check succeeds just if every
attached object has a signature with the result and the types of arguments of a prototype in the
codes of the program, the only one that is called like the hook. For this printed types are
compared, and whatever results and types of arguments code and chains have, they print the same just
if they are the same. -/
theorem checkHooks_exact {σ : Session} (hp : Reached settings vertex fragment p)
    (hσ : σ.Reachable) (k : Nat) :
    (p.checkHooks (σ.graphs k) = .ok () ↔
      ∀ hook object, p.attached[hook]? = some object → ∃ h : Hook,
        (h.DeclaredIn vertex fragment ∧ h.prototype.name = hook) ∧
        (∀ h' : Hook, h'.DeclaredIn vertex fragment → h'.prototype.name = hook → h' = h) ∧
        Matches (σ.graphs k) h object) ∧
      ∀ result types result' types', Glsl.Produced result types → Glsl.Produced result' types' →
        (Glsl.shape result types = Glsl.shape result' types' ↔
          result = result' ∧ types = types') := by
  refine ⟨?_, fun result types result' types' h h' =>
    Glsl.shape_inj h.isName.1 h'.isName.1 h.isName.2 h'.isName.2⟩
  obtain ⟨-, -, -, hattached⟩ := hp.keepsHooks
  rw [checkHooks, checkAttached_eq_ok_iff]
  constructor
  · intro hall hook object hobject
    have hhook : p.hooks.contains hook = true := hattached hook (by
      rw [Std.ExtTreeMap.contains_eq_isSome_getElem?, hobject]
      rfl)
    rw [Std.ExtTreeMap.contains_eq_isSome_getElem?] at hhook
    obtain ⟨h, hh⟩ := Option.isSome_iff_exists.1 hhook
    have hdeclared := hp.getElem?_hooks.1 hh
    refine ⟨h, hdeclared, fun h' hdeclared' hname' => ?_, ?_⟩
    · exact Option.some.inj ((hp.getElem?_hooks.2 ⟨hdeclared', hname'⟩).symm.trans hh)
    · exact (printed_eq_iff (hσ.readable k) (Prototype.readable_of_mem_findAll hdeclared.1)).1
        (hall (hook, object) (Std.ExtTreeMap.mem_toList_iff_getElem?_eq_some.2 hobject) h hh)
  · rintro hall ⟨hook, object⟩ hmem h hh
    have hobject := Std.ExtTreeMap.mem_toList_iff_getElem?_eq_some.1 hmem
    have hdeclared := hp.getElem?_hooks.1 hh
    obtain ⟨h', -, hunique, hmatches⟩ := hall hook object hobject
    obtain rfl := hunique h hdeclared.1 hdeclared.2
    exact (printed_eq_iff (hσ.readable k)
      (Prototype.readable_of_mem_findAll hdeclared.1)).2 hmatches

/-- A function that takes what the hook below takes. -/
def shadeSession : Session :=
  Session.empty.edited 0 [.function "vec4 shade(vec4 color, float scale) \x7b return color; \x7d"]

/-- A main code with a hook. -/
def shadeVertex : String := "vec4 tint(vec4, float);\nvoid main() \x7b\n\x7d"

/-- The function is found to match the one prototype that its hook was found as. -/
theorem checkHooks_exact_shade :
    ∃ p, Reached .default shadeVertex "void main() \x7b\n\x7d" p ∧
      p.attached["tint"]? = some ⟨1⟩ ∧ p.checkHooks (shadeSession.graphs 0) = .ok () ∧
      ∃ h : Hook, h.DeclaredIn shadeVertex "void main() \x7b\n\x7d" ∧ h.prototype.name = "tint" ∧
        Matches (shadeSession.graphs 0) h ⟨1⟩ := by
  have hcheck : (ofCode .default shadeVertex "void main() \x7b\n\x7d").toOption.map (fun p =>
      let p := ((Request.setHook "tint" ⟨1⟩).perform ⟨p, shadeSession.store 0⟩).program
      (p.attached["tint"]?, p.checkHooks (shadeSession.graphs 0))) = some (some ⟨1⟩, .ok ()) := by
    decide +kernel
  obtain ⟨p, hp, hcheck⟩ := Option.map_eq_some_iff.1 hcheck
  obtain ⟨hobject, hcheck⟩ := Prod.mk.inj hcheck
  have hreached := (Reached.start (Except.toOption_eq_some_iff.1 hp)).request (shadeSession.store 0)
    (.setHook "tint" ⟨1⟩)
  have hσ : Session.ReachableBy (fun _ _ => True) shadeSession :=
    Session.ReachableBy.empty.edited fun _ _ _ => trivial
  obtain ⟨h, ⟨hdeclared, hname⟩, -, hmatches⟩ :=
    (checkHooks_exact hreached hσ.reachable 0).1.1 hcheck "tint" ⟨1⟩ hobject
  exact ⟨_, hreached, hobject, hcheck, h, hdeclared, hname, hmatches⟩

end Program

end ShaderLink
