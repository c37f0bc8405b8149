import Mathlib.Data.List.Count
import ShaderLink.Proofs.Graph.Nodes
import ShaderLink.Proofs.Object.Kept
import ShaderLink.Proofs.Traversal.Reach

/-!
# What a touch does

`Graph.touch` walks over everything a change shows in, raises the revision of each object it meets
by one, and derives the types of the chains on its way (`retyping_touch`). Nothing else moves: an
object that is not met keeps its node (`getElem?_touch_of_not_affected`), and what is met passes the
change on to all its carriers (`affected_carrier`).

Both folds of a touch, over the objects met and over the referrers of one of them, are sequences of
steps that only raise revisions and retype chains. `Retyping` says which revisions and which chains,
and composes along a fold.
-/

namespace ShaderLink

namespace Graph

/-! ### Raising revisions and retyping chains -/

/-- The nodes of `g'` are those of `g` with revisions raised by `up`, and with other types at most
for the chains of `p`. -/
structure Retyping (up : ObjectId → Nat) (p : ObjectId → Prop) (g g' : Graph) : Prop where
  referrers : g'.referrers = g.referrers
  generation : g'.generation = g.generation
  absent : ∀ x : ObjectId, g.nodes[x]? = none → g'.nodes[x]? = none
  present : ∀ (x : ObjectId) (n : Node), g.nodes[x]? = some n →
    ∃ o', g'.nodes[x]? = some ⟨o', n.revision + up x⟩ ∧ n.object.Retyped o' ∧
      (¬ p x → o' = n.object)

namespace Retyping

variable {up up' : ObjectId → Nat} {p p' : ObjectId → Prop} {g g' g'' : Graph}

theorem refl (g : Graph) : Retyping (fun _ => 0) p g g where
  referrers := rfl
  generation := rfl
  absent := fun _ h => h
  present := fun _ n h => ⟨n.object, h, .same _, fun _ => rfl⟩

theorem trans (h : Retyping up p g g') (h' : Retyping up' p g' g'') :
    Retyping (fun x => up x + up' x) p g g'' where
  referrers := h'.referrers.trans h.referrers
  generation := h'.generation.trans h.generation
  absent := fun x hx => h'.absent x (h.absent x hx)
  present := fun x n hx => by
    obtain ⟨o', ho', hr, hp⟩ := h.present x n hx
    obtain ⟨o'', ho'', hr', hp'⟩ := h'.present x _ ho'
    exact ⟨o'', by rw [ho'', Nat.add_assoc], hr.trans hr', fun hx => (hp' hx).trans (hp hx)⟩

theorem mono (h : Retyping up p g g') (hup : ∀ x, up x = up' x) (hp : ∀ x, p x → p' x) :
    Retyping up' p' g g' := by
  obtain rfl : up = up' := funext hup
  exact { h with
    present := fun x n hx => by
      obtain ⟨o', ho', hr, hpx⟩ := h.present x n hx
      exact ⟨o', ho', hr, fun hx => hpx (mt (hp x) hx)⟩ }

theorem isChain_iff (h : Retyping up p g g') {x : ObjectId} :
    (∃ c, g'.find? x = some (.chain c)) ↔ ∃ c, g.find? x = some (.chain c) := by
  cases hx : g.nodes[x]? with
  | none => simp [find?, hx, h.absent x hx]
  | some n =>
    obtain ⟨o', ho', hr, -⟩ := h.present x n hx
    simpa [find?, hx, ho'] using hr.isChain_iff

end Retyping

variable {g : Graph} {id x y : ObjectId}

theorem retyping_bump (g : Graph) (id : ObjectId) :
    Retyping (fun x => if id = x then 1 else 0) (fun _ => False) g (g.bump id) where
  referrers := rfl
  generation := rfl
  absent := fun x hx => by simp [hx]
  present := fun x n hx => by
    refine ⟨n.object, ?_, .same _, fun _ => rfl⟩
    by_cases h : id = x <;> simp [hx, h]

/-- Putting a retyped chain in its place. -/
theorem retyping_setObject {c c' : Chain} (hc : g.find? id = some (.chain c))
    (hr : Object.Retyped (.chain c) (.chain c')) :
    Retyping (fun _ => 0) (· = id) g (g.setObject id (.chain c')) where
  referrers := rfl
  generation := rfl
  absent := fun x hx => by simp [hx]
  present := fun x n hx => by
    by_cases h : id = x
    · subst h
      have hn : n.object = .chain c := by simpa [find?, hx] using hc
      exact ⟨.chain c', by simp [hx], hn ▸ hr, fun h => absurd rfl h⟩
    · exact ⟨n.object, by simp [hx, h], .same _, fun _ => rfl⟩

/-- Deriving the types of a chain again changes that chain alone, and nothing if there is none. -/
theorem refresh_eq (g : Graph) (chain : ObjectId) :
    (g.refresh chain).2 = g ∨ ∃ c c', g.find? chain = some (.chain c) ∧
      Object.Retyped (.chain c) (.chain c') ∧
      (g.refresh chain).2 = g.setObject chain (.chain c') := by
  unfold refresh
  cases hc : g.getChain chain with
  | error e => exact Or.inl rfl
  | ok c =>
    refine Or.inr ⟨c, ?_⟩
    dsimp only
    cases g.deriveTypes c.members with
    | error e => exact ⟨_, getChain_eq_ok_iff.1 hc, Object.retyped_stale c, rfl⟩
    | ok types => exact ⟨_, getChain_eq_ok_iff.1 hc, Object.retyped_withTypes c types, rfl⟩

theorem retyping_refresh (g : Graph) (chain : ObjectId) :
    Retyping (fun _ => 0) (fun x => x = chain ∧ ∃ c, g.find? x = some (.chain c)) g
      (g.refresh chain).2 := by
  obtain h | ⟨c, c', hc, hr, h⟩ := refresh_eq g chain
  · rw [h]
    exact .refl g
  · rw [h]
    exact (retyping_setObject hc hr).mono (fun _ => rfl) (by rintro x rfl; exact ⟨rfl, c, hc⟩)

/-- The chains among some objects, as seen from the graph that a fold started from. -/
def ChainAmong (g : Graph) (l : List ObjectId) (x : ObjectId) : Prop :=
  x ∈ l ∧ ∃ c, g.find? x = some (.chain c)

theorem retyping_refreshAll (g : Graph) (l : List ObjectId) :
    Retyping (fun _ => 0) (ChainAmong g l) g
      (l.foldl (fun g source => (g.refresh source).2) g) := by
  induction l generalizing g with
  | nil => exact .refl g
  | cons a l ih =>
    have hfirst := retyping_refresh g a
    -- refreshing the first keeps the others the chains they are
    refine .mono (.trans (p := ChainAmong g (a :: l)) (hfirst.mono (fun _ => rfl) ?_)
      ((ih (g.refresh a).2).mono (fun _ => rfl) ?_)) (fun _ => rfl) (fun _ h => h)
    · rintro x ⟨rfl, hx⟩
      exact ⟨List.mem_cons_self, hx⟩
    · rintro x ⟨hx, hc⟩
      exact ⟨List.mem_cons_of_mem _ hx, hfirst.isChain_iff.1 hc⟩

/-- One round of a touch: an object is raised, and chains that refer to it are retyped. -/
theorem retyping_round (g : Graph) (a : ObjectId) :
    Retyping (fun x => if a = x then 1 else 0) (ChainAmong g (g.referrersOf a)) g
      ((g.bump a).refreshReferrers a) := by
  have hbump := retyping_bump g a
  refine .mono (.trans (p := ChainAmong g (g.referrersOf a))
    (hbump.mono (fun _ => rfl) (fun _ h => h.elim))
    ((retyping_refreshAll (g.bump a) (g.referrersOf a)).mono (fun _ => rfl) ?_))
    (fun _ => rfl) (fun _ h => h)
  rintro x ⟨hx, hc⟩
  exact ⟨hx, hbump.isChain_iff.1 hc⟩

/-- The fold of a touch over any objects: each is raised once for each time it is listed, and the
chains that refer to them may be retyped. -/
theorem retyping_touchAll (g : Graph) (l : List ObjectId) :
    Retyping (fun x => l.count x) (ChainAmong g (l.flatMap g.referrersOf)) g
      (l.foldl (fun g x => (g.bump x).refreshReferrers x) g) := by
  induction l generalizing g with
  | nil => exact .mono (.refl g) (fun _ => rfl) (fun _ h => h)
  | cons a l ih =>
    have hone := retyping_round g a
    -- later rounds go by the same record, because retyping changes no references
    have href : ((g.bump a).refreshReferrers a).referrersOf = g.referrersOf := by
      funext x
      rw [referrersOf, hone.referrers]
      rfl
    refine .mono (.trans (p := ChainAmong g ((a :: l).flatMap g.referrersOf))
      (hone.mono (fun _ => rfl) ?_)
      ((ih ((g.bump a).refreshReferrers a)).mono (fun _ => rfl) ?_)) ?_ (fun _ h => h)
    · rintro x ⟨hx, hc⟩
      exact ⟨by simp [hx], hc⟩
    · rintro x ⟨hx, hc⟩
      rw [href] at hx
      exact ⟨by simp only [List.flatMap_cons, List.mem_append, hx, or_true], hone.isChain_iff.1 hc⟩
    · intro x
      rw [List.count_cons]
      by_cases h : a = x <;> simp [h, Nat.add_comm]

/-! ### Carriers -/

theorem mem_carriers_iff : y ∈ g.carriers x ↔ y ∈ g.referrersOf x ∧ g.carries x y = true := by
  simp [carriers]

theorem mem_ids_of_carries (h : g.carries x y = true) : y ∈ g.ids := by
  rw [mem_ids_iff]
  unfold carries at h
  cases hy : g.find? y with
  | none => simp [hy] at h
  | some o => exact ⟨o, rfl⟩

theorem self_mem_affected : id ∈ g.affected id :=
  Traversal.root_mem_preorder List.mem_cons_self List.mem_cons_self

/-- **A change is passed on**: what it shows in has all its carriers among what it shows in. -/
theorem affected_carrier (hx : x ∈ g.affected id) (hy : y ∈ g.carriers x) : y ∈ g.affected id :=
  Traversal.next_mem_preorder hx (List.mem_reverse.2 hy)
    (List.mem_cons_of_mem _ (mem_ids_of_carries (mem_carriers_iff.1 hy).2))

theorem carries_of_chain {c : Chain} (h : g.find? y = some (.chain c)) : g.carries x y = true := by
  simp [carries, h]

theorem carries_of_call {c : Call} (h : g.find? y = some (.call c)) : g.carries x y = true := by
  simp [carries, h]

theorem carries_of_link {v : Variable} (h : g.find? y = some (.var v)) (hl : v.link = some x) :
    g.carries x y = true := by
  simp [carries, h, hl]

/-! ### The touch as a whole -/

/-- **A touch** raises what it affects by one and retypes chains among it. -/
theorem retyping_touch (g : Graph) (id : ObjectId) :
    Retyping (fun x => if x ∈ g.affected id then 1 else 0) (· ∈ g.affected id) g.advance
      (g.touch id) := by
  refine (retyping_touchAll g.advance (g.affected id)).mono (fun x => ?_) (fun x hx => ?_)
  · -- a traversal lists nothing twice, so nothing is raised twice
    exact List.Nodup.count Traversal.nodup_preorder
  · -- a chain that refers to something affected is a carrier of it
    obtain ⟨hx, c, hc⟩ := hx
    obtain ⟨y, hy, hxy⟩ := List.mem_flatMap.1 hx
    exact affected_carrier hy (mem_carriers_iff.2 ⟨hxy, carries_of_chain hc⟩)

@[simp] theorem generation_touch : (g.touch id).generation = g.generation + 1 :=
  (retyping_touch g id).generation

@[simp] theorem referrers_touch : (g.touch id).referrers = g.referrers :=
  (retyping_touch g id).referrers

/-- What a touch does not affect keeps its node. -/
theorem getElem?_touch_of_not_affected (hx : x ∉ g.affected id) :
    (g.touch id).nodes[x]? = g.nodes[x]? := by
  cases hn : g.nodes[x]? with
  | none => exact (retyping_touch g id).absent x hn
  | some n =>
    obtain ⟨o', ho', -, heq⟩ := (retyping_touch g id).present x n hn
    rw [ho', heq hx, if_neg hx]
    rfl

/-- What is there after a touch was there before, and was raised if it is affected. -/
theorem node_of_touch {n' : Node} (hn' : (g.touch id).nodes[x]? = some n') :
    ∃ n, g.nodes[x]? = some n ∧ n.object.Retyped n'.object ∧
      n'.revision = n.revision + if x ∈ g.affected id then 1 else 0 := by
  cases hn : g.nodes[x]? with
  | none =>
    rw [(retyping_touch g id).absent x hn] at hn'
    cases hn'
  | some n =>
    obtain ⟨o', ho', hr, -⟩ := (retyping_touch g id).present x n hn
    rw [hn'] at ho'
    obtain rfl := Option.some.inj ho'
    exact ⟨n, rfl, hr, rfl⟩

end Graph

end ShaderLink
