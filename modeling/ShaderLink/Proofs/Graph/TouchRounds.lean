import ShaderLink.Proofs.Graph.Settling

/-!
# A touch, round by round

`Graph.touch` finds everything that a change shows in before it raises a revision or derives the
types of a chain. Done in one go, a touch is a loop over a stack: each **round** takes an object off
the stack, raises its revision unless it has had its round before, derives the types of the chains
that refer to it, and puts those of its referrers on the stack that the change is passed on to
(`Graph.Rounds`). The objects it asks about are being changed by the loop itself.

That makes no difference (`touch_rounds`): a round retypes chains at most, and what a change is
passed on to does not depend on the types of chains. The loop comes to an end, whatever the graph
looks like, because an object has one round only.

`touch_exact` says what a touch does as a whole. The objects whose revision it raises are those that
the change is passed on to, directly or through others (`mem_affected_iff`).
-/

namespace ShaderLink.Graph

open Relation

variable {g g₀ : Graph} {id x y : ObjectId}

/-! ### What a change is passed on to -/

/-- A change of an object is passed on to its referrers that are chains, calls, or variables linked
to it. -/
inductive PassesOn (g : Graph) (x y : ObjectId) : Prop where
  | chain {c : Chain} (hrefers : y ∈ g.referrersOf x) (hy : g.find? y = some (.chain c))
  | call {c : Call} (hrefers : y ∈ g.referrersOf x) (hy : g.find? y = some (.call c))
  | link {v : Variable} (hrefers : y ∈ g.referrersOf x) (hy : g.find? y = some (.var v))
      (hlink : v.link = some x)

theorem mem_carriers_iff_passesOn : y ∈ g.carriers x ↔ g.PassesOn x y := by
  rw [mem_carriers_iff]
  constructor
  · rintro ⟨hrefers, hcarries⟩
    cases hy : g.find? y with
    | none => simp [carries, hy] at hcarries
    | some o =>
      cases o with
      | chain c => exact .chain hrefers hy
      | call c => exact .call hrefers hy
      | var v => exact .link hrefers hy (by simpa [carries, hy] using hcarries)
      | function s => simp [carries, hy] at hcarries
      | text code => simp [carries, hy] at hcarries
  · intro h
    cases h with
    | chain hrefers hy => exact ⟨hrefers, carries_of_chain hy⟩
    | call hrefers hy => exact ⟨hrefers, carries_of_call hy⟩
    | link hrefers hy hlink => exact ⟨hrefers, carries_of_link hy hlink⟩

/-- **What a change shows in** is what it is passed on to, directly or through others. -/
theorem mem_affected_iff : x ∈ g.affected id ↔ ReflTransGen g.PassesOn id x := by
  have hedge : Traversal.Edge (fun x => (g.carriers x).reverse) = g.PassesOn := by
    funext x y
    exact propext (List.mem_reverse.trans mem_carriers_iff_passesOn)
  have hreachable : ∀ x, Traversal.Reachable (fun x => (g.carriers x).reverse) [id] x ↔
      ReflTransGen g.PassesOn id x := by
    intro x
    simp [Traversal.Reachable, hedge]
  rw [affected, Traversal.mem_preorder_iff, hreachable]
  -- whatever is passed on to is there, so the walk does not leave its domain
  intro y hy
  obtain rfl | ⟨z, -, hz⟩ := ((hreachable y).1 hy).cases_tail
  · exact List.mem_cons_self
  · have hcarries := (mem_carriers_iff.1 (mem_carriers_iff_passesOn.2 hz)).2
    exact List.mem_cons_of_mem _ (mem_ids_of_carries hcarries)

/-! ### Rounds -/

/-- A touch under way: the graph as it is by now, the objects that have had their round, and those
that are still to have one, the last found first. -/
structure Rounds where
  graph : Graph
  visited : List ObjectId
  pending : List ObjectId

namespace Rounds

/-- A touch that begins. -/
def start (g : Graph) (id : ObjectId) : Rounds := ⟨g.advance, [], [id]⟩

/-- What the round of an object does with one of its referrers. -/
def refer (x : ObjectId) (r : Rounds) (source : ObjectId) : Rounds :=
  match r.graph.find? source with
  | some (.chain _) =>
    { r with graph := (r.graph.refresh source).2, pending := source :: r.pending }
  | some (.call _) => { r with pending := source :: r.pending }
  | some (.var v) => if v.link = some x then { r with pending := source :: r.pending } else r
  | _ => r

/-- The next round, unless nothing is pending. An object that has had its round is passed over. -/
def next? (r : Rounds) : Option Rounds :=
  match r.pending with
  | [] => none
  | x :: rest =>
    if x ∈ r.visited then some { r with pending := rest }
    else
      let g := r.graph.bump x
      some ((g.referrersOf x).foldl (refer x) ⟨g, x :: r.visited, rest⟩)

/-- One round leads to the next. -/
def Next (r s : Rounds) : Prop := r.next? = some s

theorem refer_eq (x : ObjectId) (r : Rounds) (source : ObjectId) : r.refer x source =
    { r with
      graph := (r.graph.refresh source).2
      pending := [source].filter (r.graph.carries x) ++ r.pending } := by
  -- where nothing is retyped, the graph stays as it is
  have hsame : (∀ c, r.graph.find? source ≠ some (.chain c)) →
      (r.graph.refresh source).2 = r.graph := refresh_of_not_chain
  cases hsource : r.graph.find? source with
  | none => simp [refer, carries, hsource, hsame (by simp [hsource])]
  | some o =>
    cases o with
    | chain c => simp [refer, carries, hsource]
    | call c => simp [refer, carries, hsource, hsame (by simp [hsource])]
    | var v =>
      have hgraph := hsame (by simp [hsource])
      by_cases hlink : v.link = some x
      · simp [refer, carries, hsource, hlink, hgraph]
      · simp [refer, carries, hsource, hlink, hgraph]
    | function s => simp [refer, carries, hsource, hsame (by simp [hsource])]
    | text code => simp [refer, carries, hsource, hsame (by simp [hsource])]

/-- All referrers of an object, one after the other. Retyping one chain does not change which of
the others are carriers. -/
theorem foldl_refer (x : ObjectId) (l : List ObjectId) (r : Rounds) : l.foldl (refer x) r =
    { r with
      graph := l.foldl (fun g source => (g.refresh source).2) r.graph
      pending := (l.filter (r.graph.carries x)).reverse ++ r.pending } := by
  induction l generalizing r with
  | nil => rfl
  | cons a l ih =>
    have hcarries : (r.graph.refresh a).2.carries x = r.graph.carries x :=
      (retyping_refresh r.graph a).carries_eq x
    rw [List.foldl_cons, ih, refer_eq]
    simp only [List.foldl_cons, hcarries, mk.injEq, true_and]
    cases ha : r.graph.carries x a <;> simp [ha]

/-- **One round** does to the graph what a touch does to it for one object. -/
theorem next_of_notMem {visited rest : List ObjectId} (hx : x ∉ visited) :
    Next ⟨g, visited, x :: rest⟩
      ⟨(g.bump x).refreshReferrers x, x :: visited, (g.carriers x).reverse ++ rest⟩ := by
  have hcarries : (g.bump x).carries x = g.carries x := (retyping_bump g x).carries_eq x
  rw [Next, next?]
  dsimp only
  rw [if_neg hx, foldl_refer, hcarries]
  rfl

theorem next_of_mem {visited rest : List ObjectId} (hx : x ∈ visited) :
    Next ⟨g, visited, x :: rest⟩ ⟨g, visited, rest⟩ := by
  rw [Next, next?]
  exact if_pos hx

/-- What a touch does to the graph for one object after the other. -/
def play (g : Graph) (l : List ObjectId) : Graph :=
  l.foldl (fun g x => (g.bump x).refreshReferrers x) g

/-- **The rounds follow the traversal**, from any stack of it on. What can still be entered has not
had its round, and the traversal goes by the carriers of the graph from before the touch. -/
theorem reflTransGen_visits {domain visited : List ObjectId} (stack : List (Visit ObjectId))
    (unseen : List ObjectId) (hdomain : ∀ a, ∀ b ∈ g₀.carriers a, b ∈ domain)
    (hcarriers : g.carriers = g₀.carriers) (hstack : ∀ a, .enter a ∈ stack → a ∈ domain)
    (hunseen : ∀ a ∈ domain, a ∈ unseen ↔ a ∉ visited) :
    ∃ visited', ReflTransGen Next ⟨g, visited, Traversal.enters stack⟩
      ⟨play g (Traversal.enters (Traversal.visits (fun a => (g₀.carriers a).reverse) stack unseen)),
        visited', []⟩ := by
  fun_induction Traversal.visits (fun a => (g₀.carriers a).reverse) stack unseen
    generalizing g visited with
  | case1 => exact ⟨visited, .refl⟩
  | case2 a stack unseen ih =>
    exact ih hcarriers (fun b hb => hstack b (List.mem_cons_of_mem _ hb)) hunseen
  | case3 a stack unseen ha ih =>
    have hin : a ∈ domain := hstack a List.mem_cons_self
    have hround := retyping_round g a
    -- the carriers of `a` are pending now, and `a` has had its round
    have hpending : ∀ b, .enter b ∈ ((g₀.carriers a).reverse.map .enter ++ .leave a :: stack) →
        b ∈ domain := by
      intro b hb
      obtain hb | hb := List.mem_append.1 hb
      · exact hdomain a b (by simpa using hb)
      · exact hstack b (List.mem_cons_of_mem _ (by simpa using hb))
    have hrest : ∀ b ∈ domain, b ∈ Traversal.without a unseen ↔ b ∉ a :: visited := by
      intro b hb
      rw [Traversal.mem_without, hunseen b hb, List.mem_cons, not_or, and_comm]
    obtain ⟨visited', hrun⟩ := ih (hround.carriers_eq.trans hcarriers) hpending hrest
    have hnext : Next ⟨g, visited, a :: Traversal.enters stack⟩ ⟨(g.bump a).refreshReferrers a,
        a :: visited, (g₀.carriers a).reverse ++ Traversal.enters stack⟩ := by
      rw [← hcarriers]
      exact next_of_notMem ((hunseen a hin).1 ha)
    rw [Traversal.enters_map_enter, Traversal.enters_leave] at hrun
    exact ⟨visited', .head hnext hrun⟩
  | case4 a stack unseen ha ih =>
    have hin : a ∈ domain := hstack a List.mem_cons_self
    have hvisited : a ∈ visited := not_not.1 fun h => ha ((hunseen a hin).2 h)
    have hrest : ∀ b, .enter b ∈ stack → b ∈ domain := fun b hb =>
      hstack b (List.mem_cons_of_mem _ hb)
    obtain ⟨visited', hrun⟩ := ih hcarriers hrest hunseen
    exact ⟨visited', .head (next_of_mem hvisited) hrun⟩

end Rounds

/-- **The rounds of a touch come to an end**, and leave the graph that `touch` answers. -/
theorem touch_rounds (g : Graph) (id : ObjectId) :
    ∃ visited, ReflTransGen Rounds.Next (.start g id) ⟨g.touch id, visited, []⟩ := by
  have hdomain : ∀ a, ∀ b ∈ g.carriers a, b ∈ id :: g.ids := fun a b hb =>
    List.mem_cons_of_mem _ (mem_ids_of_carries (mem_carriers_iff.1 hb).2)
  exact Rounds.reflTransGen_visits [.enter id] (id :: g.ids) hdomain rfl (by simp) (by simp)

/-- **A touch** is done after finitely many rounds, in every graph and for every identifier. It
raises the generation by one, and the revision of each object by one that the change is passed on
to: those that lead there from the touched identifier by steps from an object to a referrer that is
a chain, a call or a variable linked to it. It leaves every other object with its revision, and
nothing but types and staleness of chains is different about those it raises. -/
theorem touch_exact (g : Graph) (id : ObjectId) :
    (∃ visited, ReflTransGen Rounds.Next (.start g id) ⟨g.touch id, visited, []⟩) ∧
    (g.touch id).generation = g.generation + 1 ∧
    (g.touch id).referrers = g.referrers ∧
    (∀ x : ObjectId, g.nodes[x]? = none → (g.touch id).nodes[x]? = none) ∧
    ∀ (x : ObjectId) (n : Node), g.nodes[x]? = some n →
      ∃ n', (g.touch id).nodes[x]? = some n' ∧ n.object.Retyped n'.object ∧
        (ReflTransGen g.PassesOn id x → n'.revision = n.revision + 1) ∧
        (¬ ReflTransGen g.PassesOn id x → n' = n) := by
  have htouch := retyping_touch g id
  refine ⟨touch_rounds g id, generation_touch, referrers_touch, htouch.absent, fun x n hx => ?_⟩
  obtain ⟨o', ho', hretyped, -⟩ := htouch.present x n hx
  refine ⟨_, ho', hretyped, fun hreach => ?_, fun hreach => ?_⟩
  · show n.revision + (if x ∈ g.affected id then 1 else 0) = n.revision + 1
    rw [if_pos (mem_affected_iff.2 hreach)]
  · have hsame := getElem?_touch_of_not_affected (mt mem_affected_iff.1 hreach)
    rw [ho', hx] at hsame
    exact Option.some.inj hsame

end ShaderLink.Graph
