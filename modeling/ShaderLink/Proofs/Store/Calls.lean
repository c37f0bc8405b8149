import ShaderLink.Proofs.Definition.Unfolding
import ShaderLink.Proofs.Store.Hereditary
import ShaderLink.Proofs.Store.Kinds
import ShaderLink.Proofs.Store.Moves

/-!
# Calls and their parts

A call is made of objects that are there, so its number is handed out after theirs, and what it is a
call of never changes. So calls **follow their parts** (`Object.FollowsParts`), in all graphs of a
session and outside of them, and whatever is copied, removed and added again
(`Session.Reachable.followsParts`).

Objects that come back may close circles of dependencies, also with calls in them. No circle is one
of calls and their arguments alone, though, so the expressions of a session unfold all the same
(`Session.expressions_unfold`).
-/

namespace ShaderLink

open Relation

/-! ### Objects -/

/-- Whether an object has a higher number than its parts, if it is a call. -/
def Object.FollowsParts (x : ObjectId) (o : Object) : Prop :=
  ∀ c, o = .call c → ∀ y ∈ c.callee :: c.arguments, y.index < x.index

namespace Object

variable {x : ObjectId} {o o' : Object}

/-- Nothing that is not a call has parts. -/
theorem followsParts_of_not_call (h : ∀ c, o ≠ .call c) : o.FollowsParts x :=
  fun c hc => absurd hc (h c)

theorem New.followsParts (h : o.New) : o.FollowsParts x := by
  cases h <;> exact followsParts_of_not_call nofun

theorem Altered.followsParts (h : o.Altered o') : o'.FollowsParts x := by
  cases h <;> exact followsParts_of_not_call nofun

theorem Retyped.followsParts (hr : o.Retyped o') (h : o.FollowsParts x) : o'.FollowsParts x := by
  cases hr with
  | same => exact h
  | chain => exact followsParts_of_not_call nofun

/-- Calls are never revised, so following parts is handed on whatever is revised. -/
theorem hereditary_followsParts :
    Hereditary FollowsParts (fun _ => False) (fun _ => True) fun _ => True where
  made := False.elim
  call := fun _ => False.elim
  function := fun _ _ => followsParts_of_not_call nofun
  replace := fun _ _ _ => followsParts_of_not_call nofun
  link := fun _ _ => followsParts_of_not_call nofun
  value := fun _ _ _ => followsParts_of_not_call nofun
  members := fun _ _ _ => followsParts_of_not_call nofun
  types := fun _ _ _ => followsParts_of_not_call nofun

end Object

/-! ### Moves -/

namespace Store

variable {s t : Store} {relinked removed : ObjectId → Prop}

theorem Mild.followsParts (hmild : Mild s t) (h : s.All Object.FollowsParts) :
    t.All Object.FollowsParts := by
  cases hmild with
  | @function id f f' kept removed added hf hsig hold hnow =>
    have hf' : (Object.function f').FollowsParts id := Object.followsParts_of_not_call nofun
    exact (Graph.All.revise h hf' removed added).touch Object.hereditary_followsParts id
  | @unlinked v habsent hlink =>
    have hv : (Object.var v).FollowsParts s.fresh := Object.followsParts_of_not_call nofun
    exact Graph.All.insert h hv

/-- **Every move makes calls after their parts.** -/
theorem Move.followsParts (hmove : Move relinked removed s t) (hs : s.Lawful)
    (h : s.All Object.FollowsParts) : t.All Object.FollowsParts := by
  have hI := Object.hereditary_followsParts
  cases hmove with
  | mild hsteps =>
    induction hsteps with
    | refl => exact h
    | tail _ hmild ih => exact hmild.followsParts ih
  | refuse => exact h
  | make habsent ho => exact Graph.All.insert h ho.followsParts
  | @call c habsent hparts hcheck =>
    -- the parts are there, so their numbers were handed out before
    have hc : (Object.call c).FollowsParts s.fresh := by
      rintro _ ⟨⟩ y hy
      exact hs.bounded y (hparts y hy)
    exact Graph.All.insert h hc
  | @chain c types habsent hmembers htypes =>
    have hc : (Object.chain (c.withTypes types)).FollowsParts s.fresh :=
      Object.followsParts_of_not_call nofun
    exact Graph.All.insert h hc
  | @value id v w value changed hv hset =>
    have hw : (Object.var w).FollowsParts id := Object.followsParts_of_not_call nofun
    have hstored : (s.graph.setObject id (.var w)).All Object.FollowsParts :=
      Graph.All.setObject h hw
    cases changed with
    | true => exact hstored.touch hI id
    | false => exact hstored.congr fun _ => rfl
  | @link id other v hid hv hother =>
    have hlinked : (Object.var { v with link := some other }).FollowsParts id :=
      Object.followsParts_of_not_call nofun
    exact (Graph.All.revise h hlinked v.link.toList [other]).touch hI id
  | @members id c members kept gone came hc hold hnow hmembers =>
    have hc' : (Object.chain { c with members }).FollowsParts id :=
      Object.followsParts_of_not_call nofun
    exact ((Graph.All.revise h hc' gone came).refresh hI id).touch hI id
  | @remove id o hid ho => exact (Graph.All.discard h id o).touch hI id

end Store

/-! ### Sessions -/

namespace Session

variable {σ : Session} {k : Nat}

/-- **A session whose calls follow their parts**, in all graphs and outside of them. -/
def FollowsParts (σ : Session) : Prop := ∀ x o, σ.Holds x o → o.FollowsParts x

theorem followsParts_empty : empty.FollowsParts := by
  rintro x o (⟨k, hk⟩ | hl)
  · exact Graph.all_empty x o hk
  · cases hl

theorem FollowsParts.store (h : σ.FollowsParts) (k : Nat) : (σ.store k).All Object.FollowsParts :=
  fun x o hx => h x o (.inl ⟨k, hx⟩)

theorem FollowsParts.setStore {s : Store} (h : σ.FollowsParts) (hs : s.All Object.FollowsParts) :
    (σ.setStore k s).FollowsParts :=
  fun x o hx => (holds_setStore hx).elim (hs x o) (h x o)

theorem FollowsParts.addLoose {l : List (ObjectId × Object)} (h : σ.FollowsParts)
    (hl : ∀ p ∈ l, p.2.FollowsParts p.1) : FollowsParts { σ with loose := l ++ σ.loose } := by
  rintro x o (hx | hx)
  · exact h x o (.inl hx)
  · exact (List.mem_append.1 hx).elim (hl (x, o)) fun hx => h x o (.inr hx)

/-- **Actions keep calls behind their parts.** -/
theorem FollowsParts.perform (h : σ.FollowsParts) (hσ : σ.Lawful) {a : Action}
    (ha : a.Possible σ) : (a.perform σ).FollowsParts := by
  cases a with
  | edit k op => exact h.setStore ((op.move (hσ.store k)).followsParts (hσ.store k) (h.store k))
  | add k id o =>
    refine h.setStore ?_
    obtain hsame | ⟨o', hr, hinsert⟩ := Store.stateAfter_add id o (σ.store k)
    · rw [hsame]
      exact h.store k
    · -- what is added has the number that it had outside of the graph
      rw [hinsert]
      exact Graph.All.insert (h.store k) (hr.followsParts (h id o (.inr ha)))
  | make o =>
    have hnew : o.FollowsParts σ.fresh := Object.New.followsParts ha
    exact h.addLoose (List.forall_mem_singleton.2 hnew)
  | copy k id =>
    refine h.addLoose fun p hp => ?_
    simp only [Option.mem_toList, Option.map_eq_some_iff] at hp
    obtain ⟨o, ho, rfl⟩ := hp
    exact h.store k id o ho
  | alter id old new =>
    have hnew : new.FollowsParts id := ha.2.followsParts
    exact h.addLoose (List.forall_mem_singleton.2 hnew)
  | assignVarying k m varying expression =>
    have hmove : Store.Move (fun _ => True) (fun _ => True) (σ.store k)
        (stateAfter (m.assignVarying varying expression) (σ.store k)) :=
      m.move_assignVarying (hσ.store k) trivial expression
    -- only the main codes differ from those of the edited session
    rw [perform_assignVarying]
    exact h.setStore (k := k) (hmove.followsParts (hσ.store k) (h.store k))
  | _ => exact h

theorem Reachable.followsParts (h : σ.Reachable) : σ.FollowsParts := by
  induction h with
  | empty => exact followsParts_empty
  | act h a ha ih => exact ih.perform h.lawful ha

/-- **Expressions always unfold.** Every call of a session, in a graph or outside of the graphs,
has a higher number than its callee and its arguments. So in every graph, whether or not its
dependencies run in circles, every expression unfolds, with whatever names: to the answer or the
error that it has with the bound on its depth, and to nothing else. -/
theorem expressions_unfold (h : σ.Reachable) :
    (∀ x c, σ.Holds x (.call c) → ∀ y ∈ c.callee :: c.arguments, y.index < x.index) ∧
    ∀ k names x, (σ.graphs k).Unfolds names x ((σ.graphs k).expression names x) ∧
      ∀ r, (σ.graphs k).Unfolds names x r → r = (σ.graphs k).expression names x := by
  have hparts : ∀ x c, σ.Holds x (.call c) → ∀ y ∈ c.callee :: c.arguments, y.index < x.index :=
    fun x c hx => h.followsParts x (.call c) hx c rfl
  refine ⟨hparts, fun k names x => ⟨?_, fun r hr => ?_⟩⟩
  · refine Graph.unfolds_expression (fun x c hx a ha => ?_) names x
    exact hparts x c (.inl ⟨k, hx⟩) a (List.mem_cons_of_mem _ ha)
  · exact (Graph.unfolds_iff.1 hr).1.symm

/-- A function that is bound to a placeholder of another, and a call of the first with a call of the
second as its argument. -/
def nestedCallsSession : Session :=
  empty.edited 0 [.function "float $f(float a) { return a + $x; }",
    .function "float $g(float a) { return a * $y; }", .bind ⟨1⟩ "x" ⟨2⟩, .valued "level" (.int 3),
    .call ⟨1⟩ [⟨3⟩], .call ⟨2⟩ [⟨4⟩]]

/-- The function `f` and the outer call are copied. The function is removed, so that its call can be
bound to a placeholder of `g`. -/
def partedSession : Session :=
  ((Action.copy 0 ⟨5⟩).perform ((Action.copy 0 ⟨1⟩).perform nestedCallsSession)).edited 0
    [.remove ⟨1⟩, .bind ⟨2⟩ "y" ⟨4⟩]

/-- The function `f`, as it was copied. -/
def partedSnippet : Snippet where
  code := "float $f(float a) { return a + $x; }"
  signature := { name := "f", anonymous := true, arguments := [⟨"float", "a"⟩], result := "float" }
  template := Template.parse "float $f(float a) { return a + $x; }"
  placeholders := ["x"]
  staticNames := ["a"]
  bindings := (∅ : Std.ExtTreeMap String ObjectId).insert "x" ⟨2⟩
  requires := []
  replacements := []

/-- The function comes back, and the outer call is added to a second graph. -/
def rejoinedSession : Session :=
  (Action.add 1 ⟨5⟩ (.call ⟨⟨2⟩, [⟨4⟩]⟩)).perform
    ((Action.add 0 ⟨1⟩ (.function partedSnippet)).perform partedSession)

theorem reachable_rejoinedSession : rejoinedSession.Reachable := by
  have hnested : ReachableBy (fun _ _ => True) nestedCallsSession :=
    ReachableBy.empty.edited fun _ _ _ => trivial
  have hparted : ReachableBy (fun _ _ => True) partedSession :=
    ((hnested.act (.copy 0 ⟨1⟩) trivial trivial).act (.copy 0 ⟨5⟩) trivial trivial).edited
      fun _ _ _ => trivial
  refine .act (.act hparted.reachable (.add 0 ⟨1⟩ (.function partedSnippet)) ?_)
    (.add 1 ⟨5⟩ (.call ⟨⟨2⟩, [⟨4⟩]⟩)) ?_
  · show (_, _) ∈ Session.loose _
    decide +kernel
  · show (_, _) ∈ Session.loose _
    decide +kernel

/-- Names for the functions and the variable. -/
def rejoinedNames : Names :=
  (((∅ : Names).insert ⟨1⟩ "f").insert ⟨2⟩ "g").insert ⟨3⟩ "level"

/-- The functions and the inner call depend on each other in a circle. The outer call unfolds all
the same; in the graph that has nothing else, it unfolds to an error. -/
theorem expressions_unfold_rejoined : rejoinedSession.Reachable ∧
    (rejoinedSession.graphs 0).reaches ⟨2⟩ ⟨4⟩ = true ∧
    (rejoinedSession.graphs 0).reaches ⟨4⟩ ⟨2⟩ = true ∧
    (rejoinedSession.graphs 0).Unfolds rejoinedNames ⟨5⟩ (.ok "g(f(level))") ∧
    (rejoinedSession.graphs 1).Unfolds rejoinedNames ⟨5⟩ (.error (.unknownObject ⟨4⟩)) := by
  have hunfolds := (expressions_unfold reachable_rejoinedSession).2
  have hok : (rejoinedSession.graphs 0).expression rejoinedNames ⟨5⟩ = .ok "g(f(level))" := by
    decide +kernel
  have herror : (rejoinedSession.graphs 1).expression rejoinedNames ⟨5⟩ =
      .error (.unknownObject ⟨4⟩) := by decide +kernel
  refine ⟨reachable_rejoinedSession, by decide +kernel, by decide +kernel, ?_, ?_⟩
  · exact hok ▸ (hunfolds 0 rejoinedNames ⟨5⟩).1
  · exact herror ▸ (hunfolds 1 rejoinedNames ⟨5⟩).1

end Session

end ShaderLink
