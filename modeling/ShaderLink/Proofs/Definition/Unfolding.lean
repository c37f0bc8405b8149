import Mathlib.Tactic.Choose
import ShaderLink.Proofs.Linker.Acyclic

/-!
# Expressions without a bound

The expression of a call is written out with the expressions of its arguments, and these may be
calls again. `Graph.Unfolds` are the rules of that, with no bound on how deep calls are nested and
no record of what has been met. By these rules an expression may fail, and then it unfolds to an
error. But it may also have no end: a call that is found among its own arguments unfolds to nothing.

The linker unfolds expressions no deeper than there are objects (`Graph.expression`), and reports a
circle beyond that. `Graph.unfolds_iff` says that this is what the rules say, in every graph: an
expression unfolds to what the linker answers, and to nothing if the linker reports a circle. The
reason is that an expression which comes to its end at some depth (`Graph.EndsWithin`), and not
before, has met as many calls, all of them different (`Graph.exists_calls`).

Where the arguments of each call have lower numbers than the call, every expression unfolds
(`Graph.unfolds_expression`). Other circles in the graph do not matter.
-/

namespace ShaderLink.Graph

variable {g : Graph} {names : Names} {x : ObjectId} {c : Call} {n m : Nat}
  {r : Except LinkError String}

/-- A call, written out with its arguments. -/
def writeCall (names : Names) (callee : ObjectId) (arguments : List String) :
    Except LinkError String := do
  let callee ← nameIn names callee
  return callee ++ "(" ++ ", ".intercalate arguments ++ ")"

/-- **What an expression unfolds to**, however deep calls are nested. A call is unfolded argument by
argument, up to the first one that fails. -/
inductive Unfolds (g : Graph) (names : Names) : ObjectId → Except LinkError String → Prop where
  | absent {x : ObjectId} (hx : g.find? x = none) : Unfolds g names x (.error (.unknownObject x))
  | text {x : ObjectId} {code : String} (hx : g.find? x = some (.text code)) :
      Unfolds g names x (.ok code)
  | name {x : ObjectId} {o : Object} (hx : g.find? x = some o) (he : o.emitted = true) :
      Unfolds g names x (nameIn names x)
  | call {x : ObjectId} {c : Call} (part : ObjectId → String) (hx : g.find? x = some (.call c))
      (hparts : ∀ a ∈ c.arguments, Unfolds g names a (.ok (part a))) :
      Unfolds g names x (writeCall names c.callee (c.arguments.map part))
  | failure {x a : ObjectId} {c : Call} {before after : List ObjectId} {e : LinkError}
      (part : ObjectId → String) (hx : g.find? x = some (.call c))
      (harguments : c.arguments = before ++ a :: after)
      (hbefore : ∀ b ∈ before, Unfolds g names b (.ok (part b)))
      (ha : Unfolds g names a (.error e)) : Unfolds g names x (.error e)

/-- Whether an expression comes to its end, be it an error, when it is unfolded at most `n` deep. -/
def EndsWithin (g : Graph) (names : Names) (n : Nat) (x : ObjectId) : Prop :=
  FailsOnly LinkError.NotCyclic (g.expressionWithin names n x)

/-! ### One step -/

theorem EndsWithin.of_eq (heq : g.expressionWithin names n x = r)
    (hr : FailsOnly LinkError.NotCyclic r) : g.EndsWithin names n x := by
  rwa [EndsWithin, heq]

theorem not_endsWithin_zero : ¬ g.EndsWithin names 0 x := fun h => h _ rfl

theorem expressionWithin_absent (hx : g.find? x = none) :
    g.expressionWithin names (n + 1) x = .error (.unknownObject x) := by
  rw [expressionWithin, get, hx]
  rfl

theorem expressionWithin_text {code : String} (hx : g.find? x = some (.text code)) :
    g.expressionWithin names (n + 1) x = .ok code := by
  rw [expressionWithin, get_eq_ok_iff.2 hx]
  rfl

theorem expressionWithin_emitted {o : Object} (hx : g.find? x = some o) (he : o.emitted = true) :
    g.expressionWithin names (n + 1) x = nameIn names x := by
  rw [expressionWithin, get_eq_ok_iff.2 hx]
  cases o with
  | text _ | call _ => cases he
  | _ => rfl

theorem expressionWithin_call (hx : g.find? x = some (.call c)) :
    g.expressionWithin names (n + 1) x =
      c.arguments.mapM (g.expressionWithin names n) >>= writeCall names c.callee := by
  rw [expressionWithin, get_eq_ok_iff.2 hx]
  rfl

/-- What is not a call unfolds in one step. -/
theorem unfolds_of_not_call (names : Names) (hx : ∀ c, g.find? x ≠ some (.call c)) :
    ∃ r, g.Unfolds names x r ∧ FailsOnly LinkError.NotCyclic r ∧
      ∀ n, g.expressionWithin names (n + 1) x = r := by
  cases ho : g.find? x with
  | none => exact ⟨_, .absent ho, failsOnly_error trivial, fun n => expressionWithin_absent ho⟩
  | some o =>
    cases o with
    | call c => exact absurd ho (hx c)
    | text code => exact ⟨_, .text ho, failsOnly_ok code, fun n => expressionWithin_text ho⟩
    | _ => exact ⟨_, .name ho rfl, failsOnly_nameIn, fun n => expressionWithin_emitted ho rfl⟩

/-- A call comes to its end one step after its arguments do. -/
theorem endsWithin_call_iff (hx : g.find? x = some (.call c)) :
    g.EndsWithin names (n + 1) x ↔
      FailsOnly LinkError.NotCyclic (c.arguments.mapM (g.expressionWithin names n)) := by
  rw [EndsWithin, expressionWithin_call hx]
  refine ⟨FailsOnly.first, fun h => h.bind fun arguments _ => ?_⟩
  exact failsOnly_nameIn.bind fun _ _ => failsOnly_ok _

/-! ### The depth -/

namespace EndsWithin

theorem succ_eq (h : g.EndsWithin names n x) :
    g.expressionWithin names (n + 1) x = g.expressionWithin names n x := by
  induction n generalizing x with
  | zero => exact absurd h not_endsWithin_zero
  | succ n ih =>
    by_cases hcall : ∃ c, g.find? x = some (.call c)
    · obtain ⟨c, hx⟩ := hcall
      have harguments : c.arguments.mapM (g.expressionWithin names (n + 1)) =
          c.arguments.mapM (g.expressionWithin names n) :=
        FailsOnly.mapM_eq (fun a _ ha => ih ha) ((endsWithin_call_iff hx).1 h)
      rw [expressionWithin_call hx, expressionWithin_call hx, harguments]
    · obtain ⟨r, -, -, hr⟩ := unfolds_of_not_call names (not_exists.1 hcall)
      rw [hr, hr]

/-- **A greater depth answers the same.** -/
theorem eq_of_le (h : g.EndsWithin names n x) (hnm : n ≤ m) :
    g.expressionWithin names m x = g.expressionWithin names n x := by
  induction m, hnm using Nat.le_induction with
  | base => rfl
  | succ m _ ih =>
    have hm : g.EndsWithin names m x := .of_eq ih h
    rw [hm.succ_eq, ih]

theorem mono (h : g.EndsWithin names n x) (hnm : n ≤ m) : g.EndsWithin names m x :=
  .of_eq (h.eq_of_le hnm) h

theorem eq (h : g.EndsWithin names n x) (h' : g.EndsWithin names m x) :
    g.expressionWithin names n x = g.expressionWithin names m x :=
  (Nat.le_total n m).elim (fun hnm => (h.eq_of_le hnm).symm) h'.eq_of_le

/-- **What is unfolded to its end** follows the rules. -/
theorem unfolds (h : g.EndsWithin names n x) :
    g.Unfolds names x (g.expressionWithin names n x) := by
  induction n generalizing x with
  | zero => exact absurd h not_endsWithin_zero
  | succ n ih =>
    by_cases hcall : ∃ c, g.find? x = some (.call c)
    · obtain ⟨c, hx⟩ := hcall
      have hends := (endsWithin_call_iff hx).1 h
      have hpart : ∀ {a s}, g.expressionWithin names n a = .ok s → g.Unfolds names a (.ok s) := by
        intro a s ha
        exact ha ▸ ih (failsOnly_of_ok ⟨s, ha⟩)
      rw [expressionWithin_call hx]
      cases harguments : c.arguments.mapM (g.expressionWithin names n) with
      | ok parts =>
        choose! part hparts using exists_eq_ok_of_mapM harguments
        rw [mapM_eq_ok_map hparts] at harguments
        cases harguments
        exact .call part hx fun a ha => hpart (hparts a ha)
      | error e =>
        obtain ⟨before, a, after, hsplit, hbefore, ha⟩ := mapM_eq_error_iff.1 harguments
        choose! part hparts using hbefore
        have hends : g.EndsWithin names n a := .of_eq ha (failsOnly_error (hends e harguments))
        exact .failure part hx hsplit (fun b hb => hpart (hparts b hb)) (ha ▸ ih hends)
    · obtain ⟨r, hunfolds, -, hr⟩ := unfolds_of_not_call names (not_exists.1 hcall)
      rwa [hr]

end EndsWithin

/-- A depth at which each of some arguments answers can be taken for all of them. -/
theorem exists_depth {part : ObjectId → String} {l : List ObjectId}
    (h : ∀ a ∈ l, ∃ n, g.expressionWithin names n a = .ok (part a)) :
    ∃ n, ∀ m, n ≤ m → ∀ a ∈ l, g.expressionWithin names m a = .ok (part a) := by
  induction l with
  | nil => exact ⟨0, nofun⟩
  | cons a l ih =>
    obtain ⟨⟨n, hn⟩, hl⟩ := List.forall_mem_cons.1 h
    obtain ⟨k, hk⟩ := ih hl
    have hends : g.EndsWithin names n a := failsOnly_of_ok ⟨_, hn⟩
    refine ⟨max n k, fun m hm => List.forall_mem_cons.2 ⟨?_, hk m (by omega)⟩⟩
    rw [hends.eq_of_le (by omega), hn]

/-- **What follows the rules** is unfolded to its end at some depth. -/
theorem Unfolds.exists_endsWithin (h : g.Unfolds names x r) :
    ∃ n, g.EndsWithin names n x ∧ g.expressionWithin names n x = r := by
  induction h with
  | @absent x hx =>
    have heq : g.expressionWithin names 1 x = _ := expressionWithin_absent hx
    exact ⟨1, .of_eq heq (failsOnly_error trivial), heq⟩
  | @text x code hx =>
    have heq : g.expressionWithin names 1 x = _ := expressionWithin_text hx
    exact ⟨1, .of_eq heq (failsOnly_ok code), heq⟩
  | @name x o hx he =>
    have heq : g.expressionWithin names 1 x = _ := expressionWithin_emitted hx he
    exact ⟨1, .of_eq heq failsOnly_nameIn, heq⟩
  | @call x c part hx hparts ih =>
    obtain ⟨n, hn⟩ := exists_depth fun a ha => (ih a ha).imp fun _ h => h.2
    have harguments := mapM_eq_ok_map (hn n (Nat.le_refl n))
    refine ⟨n + 1, (endsWithin_call_iff hx).2 (failsOnly_of_ok ⟨_, harguments⟩), ?_⟩
    rw [expressionWithin_call hx, harguments, Except.ok_bind]
  | @failure x a c before after e part hx hsplit hbefore ha ihbefore iha =>
    obtain ⟨n, hn⟩ := exists_depth fun b hb => (ihbefore b hb).imp fun _ h => h.2
    obtain ⟨k, hends, hk⟩ := iha
    have hfails : g.expressionWithin names (max n k) a = .error e :=
      (hends.eq_of_le (Nat.le_max_right n k)).trans hk
    have harguments : c.arguments.mapM (g.expressionWithin names (max n k)) = .error e :=
      mapM_eq_error_iff.2 ⟨before, a, after, hsplit,
        fun b hb => ⟨_, hn _ (Nat.le_max_left n k) b hb⟩, hfails⟩
    refine ⟨max n k + 1, (endsWithin_call_iff hx).2 ?_, ?_⟩
    · rw [harguments]
      exact failsOnly_error (hends e hk)
    · rw [expressionWithin_call hx, harguments, Except.error_bind]

/-! ### The bound -/

/-- An expression that comes to its end at a depth and not before meets as many calls. They differ
because each comes to its end before the one that it is an argument of. -/
theorem exists_calls (h : g.EndsWithin names (n + 1) x) (hn : ¬ g.EndsWithin names n x) :
    ∃ l : List ObjectId, l.length = n ∧ l.Nodup ∧
      ∀ y ∈ l, y ∈ g.ids ∧ g.EndsWithin names (n + 1) y := by
  induction n generalizing x with
  | zero => exact ⟨[], rfl, List.nodup_nil, nofun⟩
  | succ n ih =>
    obtain ⟨c, hx⟩ : ∃ c, g.find? x = some (.call c) := by
      by_contra hcall
      obtain ⟨r, -, hfails, hr⟩ := unfolds_of_not_call names (not_exists.1 hcall)
      exact hn (.of_eq (hr n) hfails)
    -- some argument keeps the call from coming to its end before
    obtain ⟨a, -, ha, ha'⟩ := FailsOnly.exists_of_mapM (fun a _ ha => EndsWithin.succ_eq ha)
      ((endsWithin_call_iff hx).1 h) (mt (endsWithin_call_iff hx).2 hn)
    obtain ⟨l, hlen, hnodup, hl⟩ := ih ha ha'
    have hnotMem : x ∉ l := fun hmem => hn (hl x hmem).2
    refine ⟨x :: l, by rw [List.length_cons, hlen], List.nodup_cons.2 ⟨hnotMem, hnodup⟩,
      List.forall_mem_cons.2 ⟨⟨mem_ids_of_find? hx, h⟩, fun y hy => ?_⟩⟩
    exact ⟨(hl y hy).1, (hl y hy).2.mono (Nat.le_succ _)⟩

theorem EndsWithin.walkBound (h : g.EndsWithin names n x) : g.EndsWithin names g.walkBound x := by
  induction n with
  | zero => exact absurd h not_endsWithin_zero
  | succ n ih =>
    by_cases hn : g.EndsWithin names n x
    · exact ih hn
    · -- there are no more calls to meet than objects
      obtain ⟨l, hlen, hnodup, hl⟩ := exists_calls h hn
      have hle : l.length ≤ g.ids.length :=
        (List.subperm_of_subset hnodup fun y hy => (hl y hy).1).length_le
      rw [hlen, length_ids] at hle
      exact h.mono (Nat.succ_le_succ hle)

/-- **The bound plays no part**, in any graph: an expression unfolds to what is answered with the
bound, and to nothing if a circle is reported. -/
theorem unfolds_iff : g.Unfolds names x r ↔
    g.expression names x = r ∧ FailsOnly LinkError.NotCyclic r := by
  constructor
  · intro h
    obtain ⟨n, hends, rfl⟩ := h.exists_endsWithin
    exact ⟨hends.walkBound.eq hends, hends⟩
  · rintro ⟨rfl, hends⟩
    exact EndsWithin.unfolds hends

/-- A call that is its own argument. -/
def callOfItself : Graph :=
  Graph.empty.insert ⟨1⟩ (.call ⟨⟨1⟩, [⟨1⟩]⟩)

/-- It has no end, and a circle is reported. -/
example : callOfItself.expression ∅ ⟨1⟩ = .error (.cyclicDependency ⟨1⟩) := by decide +kernel

/-! ### Descending arguments -/

/-- Where arguments have lower numbers, an expression is nested no deeper than its number says. -/
theorem endsWithin_of_index_lt
    (hcalls : ∀ x c, g.find? x = some (.call c) → ∀ a ∈ c.arguments, a.index < x.index)
    (hx : x.index < n) : g.EndsWithin names n x := by
  induction n generalizing x with
  | zero => exact absurd hx (Nat.not_lt_zero _)
  | succ n ih =>
    by_cases hcall : ∃ c, g.find? x = some (.call c)
    · obtain ⟨c, hc⟩ := hcall
      refine (endsWithin_call_iff hc).2 (failsOnly_mapM fun a ha => ih ?_)
      have hlt := hcalls x c hc a ha
      omega
    · obtain ⟨r, -, hfails, hr⟩ := unfolds_of_not_call names (not_exists.1 hcall)
      exact .of_eq (hr n) hfails

/-- **Where arguments have lower numbers, every expression unfolds.** -/
theorem unfolds_expression
    (hcalls : ∀ x c, g.find? x = some (.call c) → ∀ a ∈ c.arguments, a.index < x.index)
    (names : Names) (x : ObjectId) : g.Unfolds names x (g.expression names x) := by
  have hends : g.EndsWithin names (x.index + 1) x :=
    endsWithin_of_index_lt hcalls (Nat.lt_succ_self _)
  exact hends.walkBound.unfolds

end ShaderLink.Graph
