import ShaderLink.Proofs.Store.Session

/-!
# The record of references is exact

A graph keeps count of who refers to whom by hand, through every edit, removal and addition. As long
as nothing is added in the place of an object that is there, the count stays right: it holds the
references of the objects that are in the graph and no others (`Session.referrers_exact`).

Each step that an action takes a graph through keeps the count exact (`Graph.Step.exactUpTo`), so
this is an induction over the actions of a session. What an object refers to, and how often, is
spelled out for each kind (`Object.count_references`).
-/

namespace ShaderLink

/-- **How often an object refers to another**: a variable once if it is linked to it, a function for
each placeholder that it is bound to, a chain for each time it is a member, and a call as its callee
and for each time it is an argument. -/
theorem Object.count_references (o : Object) (x : ObjectId) : o.references.count x =
    match o with
    | .var v => if v.link = some x then 1 else 0
    | .function s => s.placeholders.countP fun p => s.bindings[p]? = some x
    | .chain c => c.members.count x
    | .call c => (if c.callee = x then 1 else 0) + c.arguments.count x
    | .text _ => 0 := by
  cases o with
  | var v => cases hlink : v.link <;> simp [references, hlink, List.count_singleton]
  | function s =>
    rw [references, Snippet.boundObjects, List.count_filterMap]
    exact List.countP_congr fun p _ => by simp
  | chain c => rfl
  | call c => simp [references, List.count_cons, Nat.add_comm]
  | text code => rfl

namespace Graph

variable {g : Graph} {x y : ObjectId} {extra : ObjectId → ObjectId → Nat}

/-- The referrers of an object are listed ascending, each of them once. -/
theorem ordered_referrersOf (g : Graph) (x : ObjectId) :
    (g.referrersOf x).Pairwise fun a b => a.index < b.index := by
  have hordered := Std.ExtTreeSet.ordered_toList (t := Std.ExtTreeSet.ofList (g.referrers.entries x))
  refine hordered.imp fun {a b} hlt => ?_
  exact Nat.compare_eq_lt.1 hlt

/-- The referrers of an object are those that refer to it and those that are recorded besides. -/
theorem ExactUpTo.mem_referrersOf_iff (h : g.ExactUpTo extra) :
    y ∈ g.referrersOf x ↔ (∃ o, g.find? y = some o ∧ x ∈ o.references) ∨ 0 < extra x y := by
  rw [Graph.mem_referrersOf_iff, h x y, Nat.add_pos_iff_pos_or_pos]
  refine or_congr_left ?_
  cases hy : g.find? y with
  | none =>
    rw [mentions_eq_zero hy]
    simp
  | some o =>
    rw [mentions_of_find? hy, List.count_pos_iff]
    simp

/-- Where references are exact, the referrers of an object are the objects that refer to it. -/
theorem Exact.mem_referrersOf_iff (h : g.Exact) :
    y ∈ g.referrersOf x ↔ ∃ o, g.find? y = some o ∧ x ∈ o.references := by
  simpa using h.upTo.mem_referrersOf_iff

end Graph

namespace Session

variable {σ : Session} {k : Nat}

/-- The rule that nothing is added to a graph in the place of an object that is there. -/
def AddsAbsent (k : Nat) (σ : Session) (a : Action) : Prop :=
  ∀ x, a.Adds k x → x ∉ (σ.graphs k).ids

theorem addsAbsent_edit {j : Nat} (op : Operation) : AddsAbsent k σ (.edit j op) :=
  fun _ hx => absurd hx Action.not_adds_edit

theorem ReachableBy.exact (h : ReachableBy (AddsAbsent k) σ) : (σ.graphs k).Exact := by
  induction h with
  | empty =>
    intro target source
    rfl
  | @act σ h a ha hrule ih =>
    have hsteps := Action.steps h.reachable.lawful ha hrule
    exact Graph.Steps.exact hsteps ih

/-- **The record of references is exact** in every graph of a session in which nothing was added in
the place of an object that was there. An object refers to another as often as its placeholders,
members, callee, arguments and link do, and not at all once it is gone; and the referrers of an
object, present or not, are the objects that refer to it. -/
theorem referrers_exact (h : ReachableBy (AddsAbsent k) σ) :
    (∀ x y, (σ.graphs k).referrers.count x y =
      match (σ.graphs k).find? y with
      | some o => o.references.count x
      | none => 0) ∧
    ∀ x, ((σ.graphs k).referrersOf x).Pairwise (fun a b => a.index < b.index) ∧
      ∀ y, y ∈ (σ.graphs k).referrersOf x ↔
        ∃ o, (σ.graphs k).find? y = some o ∧ x ∈ o.references := by
  have hexact := h.exact
  refine ⟨fun x y => ?_, fun x => ⟨Graph.ordered_referrersOf _ x, fun y => ?_⟩⟩
  · rw [hexact x y]
    cases hy : (σ.graphs k).find? y with
    | none => exact Graph.mentions_eq_zero hy
    | some o => exact Graph.mentions_of_find? hy
  · exact hexact.mem_referrersOf_iff

/-- A session in which a variable is bound to both placeholders of a function. -/
def twiceSession : Session :=
  empty.edited 0 [.function "float $sum() { return $a + $b; }", .valued "level" (.int 3),
    .bind ⟨1⟩ "a" ⟨2⟩, .bind ⟨1⟩ "b" ⟨2⟩]

/-- The session in which a copy of the variable is kept and the variable is removed. -/
def removedSession : Session :=
  (Action.edit 0 (.remove ⟨2⟩)).perform ((Action.copy 0 ⟨2⟩).perform twiceSession)

/-- The session in which the copy takes the place of the variable. -/
def returnedSession : Session :=
  (Action.add 0 ⟨2⟩ (.var (.ofValue "level" (.int 3)))).perform removedSession

/-- The function goes on referring to a variable that is gone, twice, and does so when it is back. -/
theorem referrers_exact_returned :
    (removedSession.graphs 0).find? ⟨2⟩ = none ∧
      ReachableBy (AddsAbsent 0) removedSession ∧ ReachableBy (AddsAbsent 0) returnedSession ∧
      (removedSession.graphs 0).referrers.count ⟨2⟩ ⟨1⟩ = 2 ∧
      ⟨1⟩ ∈ (returnedSession.graphs 0).referrersOf ⟨2⟩ := by
  have habsent : (removedSession.graphs 0).find? ⟨2⟩ = none := by decide +kernel
  have hremoved : ReachableBy (AddsAbsent 0) removedSession := by
    have htwice : ReachableBy (AddsAbsent 0) twiceSession :=
      ReachableBy.empty.edited fun op _ _ => addsAbsent_edit op
    have hcopy := htwice.act (.copy 0 ⟨2⟩) trivial fun x ⟨_, hx⟩ => nomatch hx
    exact hcopy.act (.edit 0 (.remove ⟨2⟩)) trivial (addsAbsent_edit _)
  have hreturned : ReachableBy (AddsAbsent 0) returnedSession := by
    refine hremoved.act (.add 0 ⟨2⟩ (.var (.ofValue "level" (.int 3)))) ?_ ?_
    · show (_, _) ∈ removedSession.loose
      decide +kernel
    · rintro x ⟨o, ho⟩ hx
      cases ho
      obtain ⟨o, ho⟩ := Graph.mem_ids_iff.1 hx
      rw [habsent] at ho
      cases ho
  -- the function refers to the variable through both of its placeholders
  have hrefers : ((removedSession.graphs 0).find? ⟨1⟩).map (·.references.count ⟨2⟩) = some 2 ∧
      ((returnedSession.graphs 0).find? ⟨1⟩).map (·.references.count ⟨2⟩) = some 2 := by
    decide +kernel
  refine ⟨habsent, hremoved, hreturned, ?_, ?_⟩
  · rw [(referrers_exact hremoved).1 ⟨2⟩ ⟨1⟩]
    obtain ⟨f, hf, hcount⟩ := Option.map_eq_some_iff.1 hrefers.1
    rw [hf]
    exact hcount
  · rw [((referrers_exact hreturned).2 ⟨2⟩).2 ⟨1⟩]
    obtain ⟨f, hf, hcount⟩ := Option.map_eq_some_iff.1 hrefers.2
    exact ⟨f, hf, List.count_pos_iff.1 (by rw [hcount]; decide)⟩

end Session

end ShaderLink
