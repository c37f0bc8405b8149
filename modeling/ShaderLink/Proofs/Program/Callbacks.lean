import ShaderLink.Proofs.Program.Request
import ShaderLink.Proofs.Store.ChainFailure

/-!
# Callbacks that fail

Adding a callback changes a program and its store together, and it may fail after it has changed
either of them. What it leaves behind depends on where it stops (`Workspace.CallbackFailure`):

* before anything was done, if no stage declares the hook, or if something other than a chain is
  attached to it;
* in the chain that is attached to the hook. The program is as it was then, and the edit of the
  chain is refused or made as any other (`MemberEdit.Refused`, `MemberEdit.Made`);
* in the chain that was attached to the hook first, because the hook was free. That chain has no
  members, so the callback can only be refused. The chain stays where it is: nothing takes it away
  again.

So a failed callback does not always leave everything as it was, and
`Workspace.failed_callback_attaches_chain` is a case in which it does not.
-/

namespace ShaderLink

namespace Store

variable {s t : Store} {id m : ObjectId} {c : Chain} {e : LinkError}

/-- A chain without members is made of nothing, so that cannot fail. -/
theorem run_chain_empty (name : String) (anonymous : Bool) (s : Store) :
    (chain name anonymous []).run s =
      .ok s.fresh ⟨s.graph.insert s.fresh (.chain (.empty name anonymous)), s.fresh.next⟩ := rfl

/-- A member that cannot be called is refused before anything is done. -/
theorem run_insertMember_of_error (index : Nat) (hc : s.graph.find? id = some (.chain c))
    (he : s.graph.callable m = .error e) : (insertMember id index m).run s = .error e s := by
  unfold insertMember
  rw [run_ask_bind (Graph.getChain_eq_ok_iff.2 hc), EStateM.run_bind, run_ask, he]

theorem run_append (hc : s.graph.find? id = some (.chain c)) :
    (append id m).run s = (insertMember id c.members.length m).run s := by
  unfold append
  rw [run_ask_bind (Graph.getChain_eq_ok_iff.2 hc)]

end Store

/-- The edit of members that adds a callback to a chain. -/
def MemberEdit.callback (chain function : ObjectId) (first : Bool) : MemberEdit :=
  ⟨chain, some function, fun l => .ok (if first then function :: l else l ++ [function])⟩

namespace Workspace

variable {α : Type} {w w' : Workspace} {s : Store} {hook : String} {chain function : ObjectId}
  {first : Bool} {c : Chain} {e : LinkError}

/-! ### Runs of the parts -/

theorem run_onProgram (operation : ProgramM α) (w : Workspace) :
    (onProgram operation).run w = match operation.run w.program with
      | .ok a program => .ok a { w with program }
      | .error e program => .error e { w with program } := by
  unfold onProgram
  rw [EStateM.run_bind, EStateM.run_get]
  dsimp only
  cases operation.run w.program <;> rfl

theorem run_onStore (edit : Edit α) (w : Workspace) :
    (onStore edit).run w = match edit.run w.store with
      | .ok a store => .ok a { w with store }
      | .error e store => .error (.link e) { w with store } := by
  unfold onStore
  rw [EStateM.run_bind, EStateM.run_get]
  dsimp only
  cases edit.run w.store <;> rfl

theorem run_checkIsChain (hook : String) (object : ObjectId) (w : Workspace) :
    (checkIsChain hook object).run w = match w.store.graph.getChain object with
      | .ok _ => .ok () w
      | .error _ => .error (.notAChain hook) w := by
  unfold checkIsChain
  rw [EStateM.run_bind, EStateM.run_get]
  dsimp only
  cases w.store.graph.getChain object <;> rfl

/-- The workspace in which a new chain without members is attached to a hook. -/
def withChain (w : Workspace) (hook : String) : Workspace where
  program :=
    { w.program with
      attached := w.program.attached.insert hook w.store.fresh
      dirty := true }
  store :=
    { graph := w.store.graph.insert w.store.fresh (.chain (.empty hook false))
      fresh := w.store.fresh.next }

/-- A free hook gets a chain, if there is such a hook. -/
theorem run_addChain (hfree : w.program.attached[hook]? = none) :
    (addChain hook).run w = if w.program.hooks.contains hook then
      .ok w.store.fresh (w.withChain hook) else .error (.unknownHook hook) w := by
  unfold addChain
  rw [EStateM.run_bind, run_onProgram, Program.run_checkHook]
  by_cases hhook : w.program.hooks.contains hook = true
  · rw [if_pos hhook, if_pos hhook]
    dsimp only
    rw [EStateM.run_bind, run_onStore, Store.run_chain_empty]
    dsimp only
    have hset : (Program.setHook hook w.store.fresh).run w.program =
        .ok none (w.withChain hook).program := by
      unfold Program.setHook
      rw [EStateM.run_bind, Program.run_checkHook, if_pos hhook]
      dsimp only
      rw [EStateM.run_bind, EStateM.run_get]
      dsimp only
      rw [hfree]
      rfl
    rw [EStateM.run_bind, run_onProgram, hset]
    rfl
  · rw [if_neg hhook, if_neg hhook]

/-! ### Where a callback stops -/

/-- The edit that puts a callback into a chain. -/
def addToChain (chain function : ObjectId) (first : Bool) : Edit Unit :=
  if first then Store.prepend chain function else Store.append chain function

/-- What comes once there is something at the hook. -/
def addToHook (hook : String) (function : ObjectId) (first : Bool) (object : ObjectId) :
    WorkspaceM Unit := do
  checkIsChain hook object
  onStore (addToChain object function first)
  markDirty

theorem run_addCallback : (addCallback hook function first).run w =
    match w.program.attached[hook]? with
    | some object => (addToHook hook function first object).run w
    | none => match (addChain hook).run w with
      | .ok chain t => (addToHook hook function first chain).run t
      | .error e t => .error e t := by
  unfold addCallback
  rw [EStateM.run_bind, EStateM.run_get]
  dsimp only
  cases w.program.attached[hook]? with
  | some object => rfl
  | none =>
    dsimp only
    rw [EStateM.run_bind]
    cases (addChain hook).run w <;> rfl

/-- It stops at what is no chain, or where the chain's edit fails. -/
theorem addToHook_eq_error {e : ProgramError}
    (h : (addToHook hook function first chain).run w = .error e w') :
    (e = .notAChain hook ∧ w' = w ∧ ∀ c, w.store.graph.find? chain ≠ some (.chain c)) ∨
      ∃ c e' s, w.store.graph.find? chain = some (.chain c) ∧
        (addToChain chain function first).run w.store = .error e' s ∧
        e = .link e' ∧ w' = { w with store := s } := by
  unfold addToHook at h
  rw [EStateM.run_bind, run_checkIsChain] at h
  cases hc : w.store.graph.getChain chain with
  | error e' =>
    rw [hc] at h
    cases h
    refine .inl ⟨rfl, rfl, fun c hchain => ?_⟩
    rw [Graph.getChain_eq_ok_iff.2 hchain] at hc
    cases hc
  | ok c =>
    rw [hc] at h
    dsimp only at h
    rw [EStateM.run_bind, run_onStore] at h
    cases hedit : (addToChain chain function first).run w.store with
    | ok u s =>
      rw [hedit] at h
      cases h
    | error e' s =>
      rw [hedit] at h
      cases h
      exact .inr ⟨c, e', s, Graph.getChain_eq_ok_iff.1 hc, rfl, rfl, rfl⟩

/-- The chain's edit fails as any edit of members. -/
theorem failsAs_addToChain {extra : ObjectId → ObjectId → Nat} (hg : s.graph.ExactUpTo extra)
    (chain function : ObjectId) (first : Bool) :
    s.FailsAs (.callback chain function first) (addToChain chain function first) := by
  cases first with
  | true => exact Store.failsAs_prepend (r := .callback chain function true) hg rfl fun _ => rfl
  | false => exact Store.failsAs_append (r := .callback chain function false) hg rfl fun _ => rfl

/-- **A chain without members only refuses a callback**: where the callback can be called, so can
the first and the last member of the chain that it is put into. -/
theorem refused_of_empty {extra : ObjectId → ObjectId → Nat} (hg : s.graph.ExactUpTo extra)
    {t : Store} (hc : s.graph.find? chain = some (.chain c)) (hmembers : c.members = [])
    (h : (addToChain chain function first).run s = .error e t) :
    t.graph = s.graph ∧ (MemberEdit.callback chain function first).Refused s.graph e := by
  obtain hrefused | ⟨c', members, hc', happly, ⟨x, hx, he⟩, hstale⟩ :=
    failsAs_addToChain hg chain function first e t h
  · exact hrefused
  · obtain rfl : c = c' := Object.chain.inj (Option.some.inj (hc.symm.trans hc'))
    -- the callback is the only member then, so it is the one that cannot be called
    have honly : members = [function] := by
      have := Except.ok.inj happly
      rw [hmembers] at this
      cases first <;> exact this.symm
    obtain rfl : function = x := by
      rw [honly] at hx
      exact Option.some.inj (hx.elim id id)
    have hrun : (addToChain chain function first).run s = .error e s := by
      cases first with
      | true => exact Store.run_insertMember_of_error 0 hc he
      | false => exact (Store.run_append hc).trans (Store.run_insertMember_of_error _ hc he)
    rw [hrun] at h
    cases h
    exact ⟨rfl, .member rfl he⟩

/-- **What a callback that fails leaves behind.** -/
inductive CallbackFailure (w : Workspace) (hook : String) (function : ObjectId) (first : Bool) :
    ProgramError → Workspace → Prop where
  /-- No stage declares the hook, and nothing happens. -/
  | unknown (hfree : w.program.attached[hook]? = none)
      (hhook : w.program.hooks.contains hook = false) :
      CallbackFailure w hook function first (.unknownHook hook) w
  /-- Something other than a chain is attached to the hook, and nothing happens. -/
  | notAChain {object : ObjectId} (hattached : w.program.attached[hook]? = some object)
      (hobject : ∀ c, w.store.graph.find? object ≠ some (.chain c)) :
      CallbackFailure w hook function first (.notAChain hook) w
  /-- The attached chain refuses the callback, and nothing happens. -/
  | refused {chain : ObjectId} {e : LinkError} {w' : Workspace}
      (hattached : w.program.attached[hook]? = some chain) (hprogram : w'.program = w.program)
      (hgraph : w'.store.graph = w.store.graph)
      (hrefused : (MemberEdit.callback chain function first).Refused w.store.graph e) :
      CallbackFailure w hook function first (.link e) w'
  /-- The attached chain gets the callback, and is stale because another member cannot be
  called. -/
  | made {chain : ObjectId} {e : LinkError} {w' : Workspace}
      (hattached : w.program.attached[hook]? = some chain) (hprogram : w'.program = w.program)
      (hmade : (MemberEdit.callback chain function first).Made w.store.graph w'.store.graph e) :
      CallbackFailure w hook function first (.link e) w'
  /-- A chain without members is attached to the free hook, and refuses the callback. -/
  | attached {e : LinkError} {w' : Workspace} (hfree : w.program.attached[hook]? = none)
      (hhook : w.program.hooks.contains hook = true)
      (hprogram : w'.program = (w.withChain hook).program)
      (hgraph : w'.store.graph = (w.withChain hook).store.graph)
      (hrefused : (MemberEdit.callback w.store.fresh function first).Refused
        (w.withChain hook).store.graph e) :
      CallbackFailure w hook function first (.link e) w'

/-- Of a store whose references are exact, but for extra ones, every failure is one of these. -/
theorem callbackFailure_of_error {extra : ObjectId → ObjectId → Nat} {e : ProgramError}
    (hg : w.store.graph.ExactUpTo extra)
    (h : (addCallback hook function first).run w = .error e w') :
    CallbackFailure w hook function first e w' := by
  rw [run_addCallback] at h
  cases hattached : w.program.attached[hook]? with
  | some object =>
    rw [hattached] at h
    obtain ⟨rfl, rfl, hobject⟩ | ⟨c, e', s, hc, hedit, rfl, rfl⟩ := addToHook_eq_error h
    · exact .notAChain hattached hobject
    · obtain ⟨hgraph, hrefused⟩ | hmade := failsAs_addToChain hg object function first e' s hedit
      · exact .refused hattached rfl hgraph hrefused
      · exact .made hattached rfl hmade
  | none =>
    rw [hattached] at h
    dsimp only at h
    rw [run_addChain hattached] at h
    by_cases hhook : w.program.hooks.contains hook = true
    · rw [if_pos hhook] at h
      -- the chain is there and has no members, so it refuses the callback if anything fails
      have hchain : (w.withChain hook).store.graph.find? w.store.fresh =
          some (.chain (.empty hook false)) := Graph.find?_insert_self _ _ _
      obtain ⟨-, -, hobject⟩ | ⟨c, e', s, hc, hedit, rfl, rfl⟩ := addToHook_eq_error h
      · exact absurd hchain (hobject _)
      · obtain ⟨hgraph, hrefused⟩ := refused_of_empty (hg.insert w.store.fresh _) hchain rfl hedit
        exact .attached hattached hhook rfl hgraph hrefused
    · rw [if_neg hhook] at h
      cases h
      exact .unknown hattached (Bool.eq_false_iff.2 hhook)

section

variable {σ : Session} {k : Nat} {p : Program}

/-- **A callback that fails** changes nothing of the program, unless its hook was free and got the
chain that is attached first; and nothing of the graph besides that chain, unless the chain that was
attached has got the callback and its types cannot be derived. -/
theorem failed_callbacks {e : ProgramError} (h : σ.Reachable)
    (he : failure? (addCallback hook function first) ⟨p, σ.store k⟩ = some e) :
    CallbackFailure ⟨p, σ.store k⟩ hook function first e
      (stateAfter (addCallback hook function first) ⟨p, σ.store k⟩) := by
  obtain ⟨extra, hexact⟩ := h.exists_exactUpTo k
  obtain ⟨w', hw'⟩ := exists_run_of_failure? he
  rw [stateAfter_eq_of_error hw']
  exact callbackFailure_of_error (w := ⟨p, σ.store k⟩) hexact hw'

/-- A session in which the only member of a chain is gone. -/
def hollowSession : Session :=
  Session.empty.edited 0 [.function "void $f() \x7b \x7d", .function "void $g() \x7b \x7d",
    .chain "steps" false [⟨1⟩], .remove ⟨1⟩]

/-- A program with the chain attached to a hook. -/
def hollowWorkspace (p : Program) : Workspace :=
  (Request.setHook "steps" ⟨3⟩).perform ⟨p, hollowSession.store 0⟩

/-- A callback is put behind the member that is gone, and the chain has it although that fails. -/
theorem failed_callbacks_hollow : ∃ p,
    Program.ofCode .default "void main() \x7b\x7d" "void steps();\nvoid main() \x7b\x7d" = .ok p ∧
      hollowSession.Reachable ∧
      failure? (addCallback "steps" ⟨2⟩ false) (hollowWorkspace p) =
        some (.link (.unknownObject ⟨1⟩)) ∧
      CallbackFailure (hollowWorkspace p) "steps" ⟨2⟩ false (.link (.unknownObject ⟨1⟩))
        (stateAfter (addCallback "steps" ⟨2⟩ false) (hollowWorkspace p)) ∧
      (stateAfter (addCallback "steps" ⟨2⟩ false) (hollowWorkspace p)).store.graph.membersOf ⟨3⟩ =
        [⟨1⟩, ⟨2⟩] := by
  have hvalue : ((Program.ofCode .default "void main() \x7b\x7d"
      "void steps();\nvoid main() \x7b\x7d").toOption.map fun p =>
        (failure? (addCallback "steps" ⟨2⟩ false) (hollowWorkspace p),
          (stateAfter (addCallback "steps" ⟨2⟩ false) (hollowWorkspace p)).store.graph.membersOf
            ⟨3⟩)) =
      some (some (.link (.unknownObject ⟨1⟩)), [⟨1⟩, ⟨2⟩]) := by
    decide +kernel
  have hany : Session.ReachableBy (fun _ _ => True) hollowSession :=
    Session.ReachableBy.empty.edited fun _ _ _ => trivial
  cases hp : Program.ofCode .default "void main() \x7b\x7d"
      "void steps();\nvoid main() \x7b\x7d" with
  | error e =>
    rw [hp] at hvalue
    cases hvalue
  | ok p =>
    rw [hp] at hvalue
    obtain ⟨hfailure, hmembers⟩ := Prod.mk.inj (Option.some.inj hvalue)
    have hw : hollowWorkspace p = ⟨stateAfter (Program.setHook "steps" ⟨3⟩) p,
        hollowSession.store 0⟩ := stateAfter_onProgram ..
    refine ⟨p, rfl, hany.reachable, hfailure, ?_, hmembers⟩
    rw [hw] at hfailure ⊢
    exact failed_callbacks hany.reachable hfailure

/-- A session with a variable. -/
def lampSession : Session := Session.empty.edited 0 [.valued "lamp" (.int 1)]

/-- A program that is as it was drawn last. -/
def lampWorkspace (p : Program) : Workspace := ⟨{ p with dirty := false }, lampSession.store 0⟩

set_option synthInstance.maxSize 512 in
/-- A variable is no callback. The hook was free and has a chain attached afterwards, which the graph
did not have, and the program is marked for linking, although it had been drawn. -/
theorem failed_callback_attaches_chain : ∃ p,
    Program.ofCode .default "void main() \x7b\x7d" "float glow(float);\nvoid main() \x7b\x7d" =
        .ok p ∧
      lampSession.Reachable ∧
      let w := lampWorkspace p
      let w' := stateAfter (addCallback "glow" ⟨1⟩ false) w
      failure? (addCallback "glow" ⟨1⟩ false) w = some (.link (.notAFunction ⟨1⟩)) ∧
        (w.program.attached["glow"]? = none ∧ w'.program.attached["glow"]? = some ⟨2⟩) ∧
        (w.program.dirty = false ∧ w'.program.dirty = true) ∧
        (w.store.graph.ids = [⟨1⟩] ∧ w'.store.graph.ids = [⟨1⟩, ⟨2⟩]) ∧
        w.store.graph.generation = 1 ∧ w'.store.graph.generation = 2 := by
  have hvalue : ((Program.ofCode .default "void main() \x7b\x7d"
      "float glow(float);\nvoid main() \x7b\x7d").toOption.map fun p =>
        (failure? (addCallback "glow" ⟨1⟩ false) (lampWorkspace p),
          [lampWorkspace p, stateAfter (addCallback "glow" ⟨1⟩ false) (lampWorkspace p)].map fun w =>
            (w.program.attached["glow"]?, w.program.dirty, w.store.graph.ids,
              w.store.graph.generation))) =
      some (some (.link (.notAFunction ⟨1⟩)),
        [(none, false, [⟨1⟩], 1), (some ⟨2⟩, true, [⟨1⟩, ⟨2⟩], 2)]) := by
    decide +kernel
  have hany : Session.ReachableBy (fun _ _ => True) lampSession :=
    Session.ReachableBy.empty.edited fun _ _ _ => trivial
  cases hp : Program.ofCode .default "void main() \x7b\x7d"
      "float glow(float);\nvoid main() \x7b\x7d" with
  | error e =>
    rw [hp] at hvalue
    cases hvalue
  | ok p =>
    rw [hp] at hvalue
    have hall := Option.some.inj hvalue
    simp only [List.map_cons, List.map_nil, Prod.mk.injEq, List.cons.injEq, and_true] at hall
    obtain ⟨hfailure, ⟨hfree, hclean, hids, hgen⟩, hattached, hdirty, hids', hgen'⟩ := hall
    exact ⟨p, rfl, hany.reachable, hfailure, ⟨hfree, hattached⟩, ⟨hclean, hdirty⟩, ⟨hids, hids'⟩,
      hgen, hgen'⟩

end

end Workspace

end ShaderLink
