import ShaderLink.Proofs.Renumber.Linker

/-!
# Linking depends only on what the stages reach

Objects that no stage can reach play no part in linking from scratch: they may be there or not and
may be anything, and revisions, references and the generation may be whatever they are
(`Linker.link_local`). What stages **reach** is what leads from their roots along dependencies and
links (`Graph.InReach`); links count because the type of a variable is found at their end.

Two graphs that hold the same objects there mirror each other with all identifiers as they are, so
this is a case of linking under other identifiers.
-/

namespace ShaderLink

namespace Graph

/-- The objects that an object depends on or is linked to. -/
def onward (g : Graph) (x : ObjectId) : List ObjectId := g.dependencies x ++ (g.link? x).toList

/-- **What stages reach** from their roots along dependencies and links. -/
def InReach (g : Graph) (stages : Stages StageMain) (x : ObjectId) : Prop :=
  Traversal.Reachable g.onward (stages.toList.flatMap StageMain.roots) x

variable {g g' : Graph} {stages : Stages StageMain}

/-- Graphs with the same objects in reach mirror each other there. -/
theorem mirrors_of_inReach (hsame : ∀ x, g.InReach stages x → g'.find? x = g.find? x) :
    Mirrors id (g.InReach stages) g g' where
  injective := Function.injective_id
  find?_eq := fun x hx => by
    have hid : Object.renumber id = id := funext Object.renumber_id
    rw [hid, Option.map_id, id, id, hsame x hx]
  dependency := fun _ hx _ hy => hx.step (List.mem_append_left _ hy)
  link := fun _ hx _ hy =>
    hx.step (List.mem_append_right _ (Option.mem_toList.2 (link?_eq_some_iff.2 hy)))

end Graph

namespace Linker

variable {g g' : Graph} {stages : Stages StageMain}

/-- **Linking depends only on what the stages reach.** Two graphs of well-formed objects, as all
objects of sessions are, that hold the same objects where stages reach, or hold none there, are
linked by a new linker with the same sources and the same objects, or fail with the same error. -/
theorem link_local (hwf : g.AllWellFormed) (hwf' : g'.AllWellFormed)
    (hsame : ∀ x, g.InReach stages x → g'.find? x = g.find? x) (settings : Settings) :
    outcome (link g' stages) (new settings) = outcome (link g stages) (new settings) := by
  have hmirrors := Graph.mirrors_of_inReach hsame
  have hlink := hmirrors.outcome_link hwf hwf' (fun _ hr => .root hr) settings (.inr rfl)
  rw [stages.renumber_id] at hlink
  rw [hlink.eq_map]
  cases outcome (link g stages) (new settings) with
  | ok linked => exact congrArg Except.ok linked.renumber_id
  | error e => exact congrArg Except.error e.renumber_id

/-- A session in which a function refers to a varying that is linked to another function. -/
def linkedSession : Session :=
  Session.empty.edited 0 [.function "float $level() { return 1.0; }", .varying "v" none,
    .link ⟨2⟩ ⟨1⟩, .function "void $f() { x = $v; }", .bind ⟨3⟩ "v" ⟨2⟩]

/-- The session in which more was done to the graph, away from that function. -/
def crowdedSession : Session :=
  linkedSession.edited 0 [.valued "u" (.int 3), .function "float $g() { return $v; }",
    .bind ⟨5⟩ "v" ⟨2⟩, .remove ⟨4⟩, .chain "twice" true [⟨1⟩]]

/-- A stage to which the function is attached. -/
def functionStages : Stages StageMain := ⟨some (hookMain.attach ⟨"hook", ⟨3⟩, none⟩), none⟩

/-- The two graphs differ in objects and generation, and are linked the same. -/
theorem link_local_crowded :
    (∀ x, (linkedSession.graphs 0).InReach functionStages x →
      (crowdedSession.graphs 0).find? x = (linkedSession.graphs 0).find? x) ∧
    (crowdedSession.graphs 0).generation ≠ (linkedSession.graphs 0).generation ∧
    ∃ linked, outcome (link (linkedSession.graphs 0) functionStages) (new .default) = .ok linked ∧
      outcome (link (crowdedSession.graphs 0) functionStages) (new .default) = .ok linked := by
  have hreach : ∀ x, (linkedSession.graphs 0).InReach functionStages x →
      x ∈ [(⟨3⟩ : ObjectId), ⟨2⟩, ⟨1⟩] := by
    refine fun x hx => hx.induction (fun r hr => ?_) ?_
    · have hroots : ∀ r ∈ functionStages.toList.flatMap StageMain.roots,
          r ∈ [(⟨3⟩ : ObjectId), ⟨2⟩, ⟨1⟩] := by decide +kernel
      exact hroots r hr
    · decide +kernel
  have hsame : ∀ x, (linkedSession.graphs 0).InReach functionStages x →
      (crowdedSession.graphs 0).find? x = (linkedSession.graphs 0).find? x := by
    have hthree : ∀ x ∈ [(⟨3⟩ : ObjectId), ⟨2⟩, ⟨1⟩],
        (crowdedSession.graphs 0).find? x = (linkedSession.graphs 0).find? x := by decide +kernel
    exact fun x hx => hthree x (hreach x hx)
  have hlinked : Session.ReachableBy (fun _ _ => True) linkedSession :=
    Session.ReachableBy.empty.edited fun _ _ _ => trivial
  have hcrowded : Session.ReachableBy (fun _ _ => True) crowdedSession :=
    hlinked.edited fun _ _ _ => trivial
  have hlocal := link_local (hlinked.reachable.lawful.store 0).wellFormed
    (hcrowded.reachable.lawful.store 0).wellFormed hsame .default
  have hok : (outcome (link (linkedSession.graphs 0) functionStages)
      (new .default)).toOption.isSome = true := by decide +kernel
  refine ⟨hsame, by decide +kernel, ?_⟩
  cases hlink : outcome (link (linkedSession.graphs 0) functionStages) (new .default) with
  | ok linked => exact ⟨linked, rfl, hlocal.trans hlink⟩
  | error e =>
    rw [hlink] at hok
    cases hok

end Linker

end ShaderLink
