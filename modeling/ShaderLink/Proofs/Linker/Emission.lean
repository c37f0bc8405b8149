import ShaderLink.Linker
import ShaderLink.Proofs.Graph.Step
import ShaderLink.Proofs.Naming.Assignment

/-!
# Writing never fails

Once the stages are collected and their objects named, every definition can be written
(`Collected.definition_eq_ok`): validation has seen to everything but the names, an expression calls
only what is named, and it is unfolded no deeper than there are objects because dependencies go up
in rank. The same holds of `main`, as long as its outputs assign variables
(`Collected.mainText_eq_ok`).
-/

namespace ShaderLink

/-- Substitution answers if every placeholder is resolved. -/
theorem Template.exists_substitute_eq_ok {ε : Type} {t : Template}
    {resolve : String → Except ε String} (h : ∀ p ∈ t.placeholders, ∃ s, resolve p = .ok s) :
    ∃ s, t.substitute resolve = .ok s := by
  refine Except.exists_bind_eq_ok (exists_mapM_eq_ok ?_) fun parts _ => ⟨_, rfl⟩
  rintro (run | name) hpiece
  · exact ⟨run, rfl⟩
  · exact h name (mem_placeholders_iff.2 hpiece)

theorem Graph.nameIn_eq_ok_iff {names : Names} {x : ObjectId} {name : String} :
    nameIn names x = .ok name ↔ names[x]? = some name := by
  unfold nameIn
  cases names[x]? <;> simp

namespace Snippet

variable {s : Snippet} {p : String}

theorem checkBound_eq_ok (h : s.checkBound = .ok ()) (hp : p ∈ s.placeholders) :
    ∃ x, s.bindings[p]? = some x := by
  unfold checkBound at h
  split at h
  · cases h
  · next hnone =>
    have hbound : s.bindings.contains p = true := by simpa using List.find?_eq_none.1 hnone p hp
    rwa [Std.ExtTreeMap.contains_eq_isSome_getElem?, Option.isSome_iff_exists] at hbound

/-- A placeholder of the template stands for the function's own name or can have objects bound to
it. -/
theorem WellFormed.mem_placeholders (h : s.WellFormed) (hp : p ∈ s.template.placeholders)
    (hown : s.isOwnName p = false) : p ∈ s.placeholders := by
  rw [h.placeholders_eq]
  exact List.mem_filter.2 ⟨hp, by simpa using hown⟩

end Snippet

namespace Closure

open ShaderLink.Graph

/-- All objects that are emitted have names. -/
def AllNamed (c : Closure) (names : Names) : Prop :=
  ∀ x ∈ c.objects, ∃ name, names[x]? = some name

variable {g : Graph} {stages : Stages StageMain} {c : Closure} {names : Names} {x y : ObjectId}
  {o : Object}

theorem Needs.dependency (h : Needs g stages x) (ho : g.find? x = some o)
    (hy : y ∈ o.dependencies) : Needs g stages y :=
  h.step (by rwa [dependencies_of_find? ho])

theorem AllNamed.nameIn (h : c.AllNamed names) (hc : c.Collected g stages) (hx : Needs g stages x)
    (he : g.Emits x) : ∃ name, names[x]? = some name ∧ Graph.nameIn names x = .ok name := by
  obtain ⟨name, hname⟩ := h x ((hc.objects x).2 ⟨hx, he⟩)
  exact ⟨name, hname, nameIn_eq_ok_iff.2 hname⟩

/-- What is emitted in a stage is needed. -/
theorem Collected.exists_order (hc : c.Collected g stages) {stage : Stage} {m : StageMain}
    (hm : stages.get? stage = some m) : ∃ order, c.stages.get? stage = some order ∧
      ∀ x ∈ order, Needs g stages x ∧ g.Emits x := by
  obtain ⟨order, horder, hmem⟩ := hc.stage stage m hm
  refine ⟨order, horder, fun x hx => ?_⟩
  obtain ⟨hreachable, he⟩ := (hmem x).1 hx
  have hm : m ∈ stages.toList := Stages.mem_toList_of_get? hm
  exact ⟨hreachable.mono fun r hr => List.mem_flatMap.2 ⟨m, hm, hr⟩, he⟩

theorem emits_of_signature? {s : Signature} (h : g.signature? x = some s) : g.Emits x := by
  obtain ⟨o, ho, hs⟩ := Option.bind_eq_some_iff.1 h
  refine ⟨o, ho, ?_⟩
  cases o <;> first | rfl | cases hs

/-! ### Expressions -/

theorem checkCall_eq_ok {call : Call} (h : g.checkCall call = .ok ()) : g.Emits call.callee := by
  unfold checkCall at h
  split at h
  · cases h
  · next s hs => exact emits_of_signature? hs

/-- Fewer objects rank as high as a higher one. -/
theorem length_filter_rank_lt {rank : ObjectId → Nat} (hx : x ∈ g.ids) (h : rank x < rank y) :
    (g.ids.filter fun z => rank y ≤ rank z).length <
      (g.ids.filter fun z => rank x ≤ rank z).length := by
  refine Traversal.length_filter_lt (fun z hz => ?_) hx (by simp) (by simpa using h)
  simp only [decide_eq_true_eq] at hz ⊢
  omega

/-- An expression is unfolded no deeper than objects rank above it. -/
theorem Collected.expressionWithin_eq_ok (hc : c.Collected g stages) (hn : c.AllNamed names)
    {rank : ObjectId → Nat}
    (hrank : ∀ x, Needs g stages x → ∀ y ∈ g.dependencies x, rank x < rank y)
    {n : Nat} (hx : Needs g stages x)
    (hbound : (g.ids.filter fun y => rank x ≤ rank y).length ≤ n) :
    ∃ e, g.expressionWithin names n x = .ok e := by
  -- the bound goes down with the number of objects that rank as high as the one unfolded
  induction n generalizing x with
  | zero =>
    obtain ⟨o, ho⟩ := hc.present x hx
    have hmem : x ∈ g.ids.filter fun y => rank x ≤ rank y :=
      List.mem_filter.2 ⟨mem_ids_of_find? ho, by simp⟩
    rw [List.length_eq_zero_iff.1 (Nat.le_zero.1 hbound)] at hmem
    cases hmem
  | succ n ih =>
    obtain ⟨o, ho⟩ := hc.present x hx
    rw [expressionWithin, get_eq_ok_iff.2 ho, Except.ok_bind]
    cases o with
    | text code => exact ⟨code, rfl⟩
    | call call =>
      -- validation has made sure that the callee can be called, so it is emitted and named
      have hcallee : g.Emits call.callee := by
        refine checkCall_eq_ok ?_
        have := hc.valid x hx
        rwa [validate, get_eq_ok_iff.2 ho, Except.ok_bind] at this
      refine Except.exists_bind_eq_ok (exists_mapM_eq_ok fun y hy => ?_) fun arguments _ => ?_
      · have hy : y ∈ (Object.call call).dependencies := List.mem_cons_of_mem _ hy
        refine ih (hx.dependency ho hy) ?_
        have hlt := hrank x hx y (by rwa [dependencies_of_find? ho])
        have := length_filter_rank_lt (mem_ids_of_find? ho) hlt
        omega
      · obtain ⟨name, -, hname⟩ := hn.nameIn hc
          (hx.dependency ho (y := call.callee) List.mem_cons_self) hcallee
        exact Except.exists_bind_eq_ok ⟨name, hname⟩ fun _ _ => ⟨_, rfl⟩
    | _ =>
      -- anything else is emitted, and mentioned by its name
      obtain ⟨name, -, hname⟩ := hn.nameIn hc hx ⟨_, ho, rfl⟩
      exact ⟨name, hname⟩

theorem Collected.expression_eq_ok (hc : c.Collected g stages) (hn : c.AllNamed names)
    (hx : Needs g stages x) : ∃ e, g.expression names x = .ok e := by
  obtain ⟨rank, hrank⟩ := hc.rank
  refine hc.expressionWithin_eq_ok hn hrank hx ?_
  have := List.length_filter_le (fun y => decide (rank x ≤ rank y)) g.ids
  rw [length_ids] at this
  exact Nat.le_succ_of_le this

/-! ### Definitions -/

theorem variableDefinition_eq_ok {v : Variable} {q : Qualifier} {type name : String}
    (hv : g.checkVariable x v = .ok (q, type)) (hname : Graph.nameIn names x = .ok name) :
    ∃ code, g.variableDefinition names x v = .ok code := by
  rw [variableDefinition, hv, Except.ok_bind]
  refine Except.exists_bind_eq_ok ⟨name, hname⟩ fun _ _ => ?_
  split
  · split <;> exact ⟨_, rfl⟩
  · exact ⟨_, rfl⟩

/-- What a placeholder in the code of a function is replaced with. -/
def resolve (g : Graph) (names : Names) (s : Snippet) (own placeholder : String) :
    Except LinkError String :=
  if s.isOwnName placeholder then pure own
  else match s.bindings[placeholder]? with
    | some object => g.expression names object
    | none => throw (.unbound s.name placeholder)

/-- The name that a function uses for itself. -/
def ownName (names : Names) (x : ObjectId) (s : Snippet) : Except LinkError String :=
  if s.anonymous then Graph.nameIn names x else pure s.name

theorem functionDefinition_eq (g : Graph) (names : Names) (x : ObjectId) (s : Snippet) :
    g.functionDefinition names x s = s.checkBound >>= fun _ => ownName names x s >>= fun own =>
      s.template.substitute (resolve g names s own) := by
  unfold functionDefinition ownName
  cases s.checkBound with
  | error e => rfl
  | ok _ => by_cases ha : s.anonymous = true <;> simp only [ha, if_true, if_false,
      Bool.false_eq_true, Except.ok_bind] <;> rfl

theorem Collected.functionDefinition_eq_ok (hc : c.Collected g stages) (hn : c.AllNamed names)
    (hx : Needs g stages x) {s : Snippet} (ho : g.find? x = some (.function s)) (hwf : s.WellFormed)
    (hbound : s.checkBound = .ok ()) : ∃ code, g.functionDefinition names x s = .ok code := by
  rw [functionDefinition_eq, hbound, Except.ok_bind]
  obtain ⟨name, -, hname⟩ := hn.nameIn hc hx ⟨_, ho, rfl⟩
  refine Except.exists_bind_eq_ok ?_ fun own _ => ?_
  · unfold ownName
    split
    · exact ⟨name, hname⟩
    · exact ⟨s.name, rfl⟩
  · refine Template.exists_substitute_eq_ok fun p hp => ?_
    unfold resolve
    cases hown : s.isOwnName p with
    | true => exact ⟨own, rfl⟩
    | false =>
      -- validation has made sure that something is bound
      obtain ⟨y, hy⟩ := Snippet.checkBound_eq_ok hbound (hwf.mem_placeholders hp hown)
      have hdep : y ∈ (Object.function s).dependencies :=
        List.mem_append_right _ (Snippet.mem_boundObjects hwf hy)
      obtain ⟨e, he⟩ := hc.expression_eq_ok hn (hx.dependency ho hdep)
      exact ⟨e, by simpa [hy] using he⟩

theorem chainCalls_eq_ok {position : Nat} {input : String} {members : List ObjectId}
    (hcallable : ∀ y ∈ members, ∃ s, g.callable y = .ok s)
    (hnamed : ∀ y ∈ members, ∃ name, Graph.nameIn names y = .ok name) :
    ∃ r, g.chainCalls names position input members = .ok r := by
  induction members generalizing position input with
  | nil => exact ⟨_, rfl⟩
  | cons y rest ih =>
    have ih : ∀ position input, ∃ r, g.chainCalls names position input rest = .ok r :=
      fun _ _ => ih (fun z hz => hcallable z (List.mem_cons_of_mem y hz))
      (fun z hz => hnamed z (List.mem_cons_of_mem y hz))
    rw [chainCalls]
    refine Except.exists_bind_eq_ok (hcallable y List.mem_cons_self) fun s _ => ?_
    refine Except.exists_bind_eq_ok (hnamed y List.mem_cons_self) fun name _ => ?_
    dsimp only
    split
    · exact Except.exists_bind_eq_ok (ih _ _) fun r _ => ⟨_, rfl⟩
    · exact Except.exists_bind_eq_ok (ih _ _) fun r _ => ⟨_, rfl⟩

/-- Members that can be called one after the other can each be called. -/
theorem callable_of_checkMembers {chain : String} {flow : Flow} {members : List ObjectId}
    (h : g.checkMembers chain flow members = .ok ()) :
    ∀ y ∈ members, ∃ s, g.callable y = .ok s := by
  induction members generalizing flow with
  | nil => nofun
  | cons y rest ih =>
    rw [checkMembers] at h
    obtain ⟨s, hs, h⟩ := Except.bind_eq_ok_iff.1 h
    have hrest : g.checkMembers chain (.result s.name s.result) rest = .ok () := by
      cases flow with
      | start => exact h
      | result source type =>
        by_cases ha : (Flow.result source type).accepts s = true
        · simpa [ha] using h
        · simp [ha] at h
    intro z hz
    obtain rfl | hz := List.mem_cons.1 hz
    · exact ⟨s, hs⟩
    · exact ih hrest z hz

theorem callable_of_checkChain {ch : Chain} (h : g.checkChain ch = .ok ()) :
    ∀ y ∈ ch.members, ∃ s, g.callable y = .ok s := by
  unfold checkChain at h
  suffices hmembers : g.checkMembers ch.signature.name .start ch.members = .ok () from
    callable_of_checkMembers hmembers
  split at h
  · obtain ⟨_, -, h⟩ := Except.bind_eq_ok_iff.1 h
    exact h
  · exact h

theorem emits_of_callable {s : Signature} (h : g.callable x = .ok s) : g.Emits x := by
  unfold callable at h
  obtain ⟨o, ho, h⟩ := Except.bind_eq_ok_iff.1 h
  refine ⟨o, get_eq_ok_iff.1 ho, ?_⟩
  cases o <;> first | rfl | cases h

theorem Collected.chainDefinition_eq_ok (hc : c.Collected g stages) (hn : c.AllNamed names)
    (hx : Needs g stages x) {ch : Chain} (ho : g.find? x = some (.chain ch))
    (hcheck : g.checkChain ch = .ok ()) : ∃ code, g.chainDefinition names x ch = .ok code := by
  rw [chainDefinition, hcheck, Except.ok_bind]
  obtain ⟨name, -, hname⟩ := hn.nameIn hc hx ⟨_, ho, rfl⟩
  refine Except.exists_bind_eq_ok ⟨name, hname⟩ fun _ _ => ?_
  -- validation has made sure that each member can be called, so it is emitted and named
  have hcallable := callable_of_checkChain hcheck
  refine Except.exists_bind_eq_ok (chainCalls_eq_ok hcallable fun y hy => ?_) fun r _ => ⟨_, rfl⟩
  obtain ⟨s, hs⟩ := hcallable y hy
  obtain ⟨callee, -, hcallee⟩ := hn.nameIn hc (hx.dependency ho hy) (emits_of_callable hs)
  exact ⟨callee, hcallee⟩

/-- **Every definition can be written.** -/
theorem Collected.definition_eq_ok (hc : c.Collected g stages) (hn : c.AllNamed names)
    (hwf : g.AllWellFormed) (hx : Needs g stages x) : ∃ code, g.definition? names x = .ok code := by
  obtain ⟨o, ho⟩ := hc.present x hx
  have hvalid := hc.valid x hx
  rw [validate, get_eq_ok_iff.2 ho, Except.ok_bind] at hvalid
  rw [definition?, get_eq_ok_iff.2 ho, Except.ok_bind]
  cases o with
  | var v =>
    obtain ⟨r, hr, -⟩ := Except.bind_eq_ok_iff.1 hvalid
    obtain ⟨name, -, hname⟩ := hn.nameIn hc hx ⟨_, ho, rfl⟩
    obtain ⟨code, hcode⟩ := variableDefinition_eq_ok hr hname
    exact ⟨some code, congrArg (some <$> ·) hcode⟩
  | function s =>
    obtain ⟨code, hcode⟩ := hc.functionDefinition_eq_ok hn hx ho (hwf x _ ho) hvalid
    exact ⟨some code, congrArg (some <$> ·) hcode⟩
  | chain ch =>
    obtain ⟨code, hcode⟩ := hc.chainDefinition_eq_ok hn hx ho hvalid
    exact ⟨some code, congrArg (some <$> ·) hcode⟩
  | text code => exact ⟨none, rfl⟩
  | call call => exact ⟨none, rfl⟩

/-! ### Main codes -/

theorem mem_roots_of_attachment {m : StageMain} {a : Attachment} (ha : a ∈ m.attachments) :
    a.object ∈ m.roots :=
  List.mem_append_left _ (List.mem_map_of_mem ha)

theorem mem_roots_of_output {m : StageMain} {p : Output × ObjectId} (hp : p ∈ m.outputs)
    (hx : x ∈ StageMain.outputObjects p) : x ∈ m.roots :=
  List.mem_append_right _ (List.mem_flatMap.2 ⟨p, hp, hx⟩)

theorem needs_of_mem_roots {m : StageMain} (hm : m ∈ stages.toList) (hx : x ∈ m.roots) :
    Needs g stages x :=
  .root (List.mem_flatMap.2 ⟨m, hm, hx⟩)

theorem Collected.outputLines_eq_ok (hc : c.Collected g stages) (hn : c.AllNamed names)
    {outputs : List (Output × ObjectId)}
    (hneeds : ∀ p ∈ outputs, ∀ x ∈ StageMain.outputObjects p, Needs g stages x)
    (hemits : ∀ id e, (.varying id, e) ∈ outputs → g.Emits id) :
    ∃ lines, Linker.outputLines g names outputs = .ok lines := by
  induction outputs with
  | nil => exact ⟨"", rfl⟩
  | cons p rest ih =>
    obtain ⟨output, expression⟩ := p
    have hexpression : Needs g stages expression :=
      hneeds _ List.mem_cons_self expression (by cases output <;> simp [StageMain.outputObjects])
    have hrest := ih (fun q hq => hneeds q (List.mem_cons_of_mem _ hq))
      (fun id e hid => hemits id e (List.mem_cons_of_mem _ hid))
    -- whatever the target is called, the value and the other lines can be written
    have hvalue : ∀ target, ∃ lines, (g.expression names expression >>= fun value =>
        Linker.outputLines g names rest >>= fun lines =>
          (pure ("    " ++ target ++ " = " ++ value ++ ";\n" ++ lines) : Except LinkError String)) =
        .ok lines := fun target =>
      Except.exists_bind_eq_ok (hc.expression_eq_ok hn hexpression) fun value _ =>
        Except.exists_bind_eq_ok hrest fun lines _ => ⟨_, rfl⟩
    cases output with
    | builtin target => exact hvalue target
    | varying id =>
      have hid : Needs g stages id :=
        hneeds _ List.mem_cons_self id (by simp [StageMain.outputObjects])
      obtain ⟨name, -, hname⟩ := hn.nameIn hc hid (hemits id expression List.mem_cons_self)
      exact Except.exists_bind_eq_ok ⟨name, hname⟩ fun target _ => hvalue target

/-- What a hook of a main code is replaced with. -/
def attached (g : Graph) (names : Names) (m : StageMain) (hook : String) :
    Except LinkError String :=
  match m.at? hook with
  | some a => g.expression names a.object
  | none => throw (.unbound StageMain.entryPoint hook)

theorem mainText_eq (g : Graph) (names : Names) (m : StageMain) :
    Linker.mainText g names m =
      m.template.substitute (attached g names m) >>= fun code =>
        Linker.outputLines g names m.outputs >>= fun lines =>
          pure (String.ofList (Linker.insertBeforeEnd lines.toList code.toList)) := rfl

/-- Something can be written in the place of every hook. -/
theorem Collected.exists_mainCode (hc : c.Collected g stages) (hn : c.AllNamed names)
    {m : StageMain} (hm : m ∈ stages.toList) :
    ∃ code, m.template.substitute (attached g names m) = .ok code := by
  refine Template.exists_substitute_eq_ok fun hook hhook => ?_
  obtain ⟨a, ha⟩ := hc.hooks m hm hook hhook
  rw [attached, ha]
  exact hc.expression_eq_ok hn
    (needs_of_mem_roots hm (mem_roots_of_attachment (List.mem_of_find?_eq_some ha)))

/-- **A main code can be written** if its outputs assign variables. -/
theorem Collected.mainText_eq_ok (hc : c.Collected g stages) (hn : c.AllNamed names) {m : StageMain}
    (hm : m ∈ stages.toList) (hemits : ∀ id e, (.varying id, e) ∈ m.outputs → g.Emits id) :
    ∃ text, Linker.mainText g names m = .ok text := by
  rw [mainText_eq]
  refine Except.exists_bind_eq_ok (hc.exists_mainCode hn hm) fun code _ =>
    Except.exists_bind_eq_ok ?_ fun lines _ => ⟨_, rfl⟩
  exact hc.outputLines_eq_ok hn
    (fun p hp x hx => needs_of_mem_roots hm (mem_roots_of_output hp hx)) hemits

end Closure

end ShaderLink
