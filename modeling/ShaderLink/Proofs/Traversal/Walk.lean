import Mathlib.Data.List.Nodup
import Mathlib.Data.List.Perm.Subperm
import Mathlib.Logic.Relation
import Mathlib.Order.WellFounded

/-!
# Walks of a bounded length

A **walk** goes from one thing to the next until it finds what it looks for, with at most one thing
to go on to from each (`Walk.within`). The bound plays no part in what it finds, as long as there
are no more things to go on from: a walk that cannot be shorter meets different things
(`Walk.exists_walk`), so it is no longer than the list of them (`Walk.within_length`).

Without a bound, a walk is a path of steps (`Walk.Leads`). It finds what stands at the end of its
path (`Walk.exists_within_iff`), and it finds nothing exactly if its path ends elsewhere or has no
end (`Walk.forall_within_eq_none_iff`).
-/

namespace ShaderLink.Walk

open Relation

variable {α β : Type} {step : α → Option (β ⊕ α)} {n m : Nat} {a c d : α} {b : β}

/-- What a walk over at most `n` things finds. A step finds something, names the next thing, or
leads nowhere. -/
def within (step : α → Option (β ⊕ α)) : Nat → α → Option β
  | 0, _ => none
  | n + 1, a =>
    match step a with
    | none => none
    | some (.inl b) => some b
    | some (.inr next) => within step n next

theorem step_ne_none (h : within step n a = some b) : step a ≠ none := by
  cases n with
  | zero => cases h
  | succ n =>
    intro hnone
    simp [within, hnone] at h

theorem within_mono (h : within step n a = some b) (hnm : n ≤ m) : within step m a = some b := by
  induction n generalizing a m with
  | zero => cases h
  | succ n ih =>
    obtain ⟨m, rfl⟩ : ∃ k, m = k + 1 := ⟨m - 1, by omega⟩
    rw [within] at h ⊢
    split at h
    · cases h
    · exact h
    · exact ih h (by omega)

/-- A walk that cannot be shorter meets as many things as it is long. They differ because each has a
shorter walk than the one before. -/
theorem exists_walk (h : within step (n + 1) a = some b) (hn : within step n a = none) :
    ∃ l : List α, l.length = n + 1 ∧ l.Nodup ∧
      ∀ x ∈ l, step x ≠ none ∧ within step (n + 1) x = some b := by
  induction n generalizing a with
  | zero =>
    refine ⟨[a], rfl, List.nodup_singleton a, fun x hx => ?_⟩
    obtain rfl := List.mem_singleton.1 hx
    exact ⟨step_ne_none h, h⟩
  | succ n ih =>
    have hstep := step_ne_none h
    have hwalk := h
    rw [within] at hn hwalk
    cases hs : step a with
    | none => exact absurd hs hstep
    | some r =>
      cases r with
      | inl found => simp [hs] at hn
      | inr next =>
        -- the walk from the next thing cannot be shorter either
        simp only [hs] at hn hwalk
        obtain ⟨l, hlen, hnodup, hl⟩ := ih hwalk hn
        refine ⟨a :: l, by simp [hlen], List.nodup_cons.2 ⟨fun hmem => ?_, hnodup⟩, fun x hx => ?_⟩
        · -- otherwise the walk from `a` would be shorter
          have := (hl a hmem).2
          rw [within, hs] at this
          simp [hn] at this
        · obtain rfl | hx := List.mem_cons.1 hx
          · exact ⟨hstep, h⟩
          · exact ⟨(hl x hx).1, within_mono (hl x hx).2 (by omega)⟩

/-- **What is found at all** is found within as many steps as there are things to go on from. -/
theorem within_length {l : List α} (hl : ∀ x, step x ≠ none → x ∈ l)
    (h : within step n a = some b) : within step l.length a = some b := by
  induction n with
  | zero => cases h
  | succ n ih =>
    cases hn : within step n a with
    | none =>
      -- a walk that needs all its steps is no longer than the list
      obtain ⟨met, hlen, hnodup, hmet⟩ := exists_walk h hn
      have hle := (List.subperm_of_subset hnodup fun x hx => hl x (hmet x hx).1).length_le
      exact within_mono h (by omega)
    | some b' =>
      -- a shorter walk finds the same
      obtain rfl : b = b' := by
        have hmono := within_mono hn (Nat.le_succ n)
        rw [h] at hmono
        exact Option.some.inj hmono
      exact ih hn

/-! ### Paths -/

/-- A step leads from one thing to the next. -/
def Leads (step : α → Option (β ⊕ α)) (a c : α) : Prop := step a = some (.inr c)

/-- At most one thing is next. -/
theorem rightUnique_leads (step : α → Option (β ⊕ α)) : Relator.RightUnique (Leads step) := by
  intro a c d hc hd
  exact Sum.inr.inj (Option.some.inj (hc.symm.trans hd))

/-- **What a walk finds** stands at the end of its path. -/
theorem exists_within_iff : (∃ n, within step n a = some b) ↔
    ∃ c, ReflTransGen (Leads step) a c ∧ step c = some (.inl b) := by
  constructor
  · rintro ⟨n, h⟩
    induction n generalizing a with
    | zero => cases h
    | succ n ih =>
      rw [within] at h
      split at h
      · cases h
      · next found hs =>
        obtain rfl := Option.some.inj h
        exact ⟨a, .refl, hs⟩
      · next next hs =>
        obtain ⟨c, hpath, hc⟩ := ih h
        exact ⟨c, .head hs hpath, hc⟩
  · rintro ⟨c, hpath, hc⟩
    -- a step more on the path is a step more for the walk
    induction hpath using ReflTransGen.head_induction_on with
    | refl => exact ⟨1, by rw [within, hc]⟩
    | head hstep _ ih =>
      obtain ⟨n, hn⟩ := ih
      exact ⟨n + 1, by rw [within, hstep]; exact hn⟩

/-- A path ends somewhere or goes on for ever. -/
theorem ends_or_goes_on (step : α → Option (β ⊕ α)) (a : α) :
    (∃ c, ReflTransGen (Leads step) a c ∧ ∀ d, ¬ Leads step c d) ∨
      ∃ path : Nat → α, path 0 = a ∧ ∀ n, Leads step (path n) (path (n + 1)) := by
  by_cases hacc : Acc (fun c a => Leads step a c) a
  · refine .inl ?_
    induction hacc with
    | intro a _ ih =>
      by_cases hnext : ∃ c, Leads step a c
      · obtain ⟨c, hc⟩ := hnext
        obtain ⟨d, hpath, hd⟩ := ih c hc
        exact ⟨d, .head hc hpath, hd⟩
      · exact ⟨a, .refl, not_exists.1 hnext⟩
  · exact .inr (not_acc_iff_exists_descending_chain.1 hacc)

/-- A path has one end. -/
theorem end_unique (hc : ReflTransGen (Leads step) a c) (hd : ReflTransGen (Leads step) a d)
    (hc' : ∀ e, ¬ Leads step c e) (hd' : ∀ e, ¬ Leads step d e) : c = d := by
  obtain h | h := ReflTransGen.total_of_right_unique (rightUnique_leads step) hc hd
  · obtain rfl | ⟨e, he, -⟩ := h.cases_head
    · rfl
    · exact absurd he (hc' e)
  · obtain rfl | ⟨e, he, -⟩ := h.cases_head
    · rfl
    · exact absurd he (hd' e)

/-- A path that goes on for ever has no end. -/
theorem exists_leads_of_path {path : Nat → α} (h : ∀ n, Leads step (path n) (path (n + 1)))
    (hc : ReflTransGen (Leads step) (path 0) c) : ∃ d, Leads step c d := by
  have hmem : ∃ n, path n = c := by
    induction hc with
    | refl => exact ⟨0, rfl⟩
    | tail _ hstep ih =>
      obtain ⟨n, rfl⟩ := ih
      exact ⟨n + 1, rightUnique_leads step (h n) hstep⟩
  obtain ⟨n, rfl⟩ := hmem
  exact ⟨_, h n⟩

/-- **A walk finds nothing** exactly if its path ends where nothing is found, or has no end. -/
theorem forall_within_eq_none_iff : (∀ n, within step n a = none) ↔
    (∃ c, ReflTransGen (Leads step) a c ∧ step c = none) ∨
      ∃ path : Nat → α, path 0 = a ∧ ∀ n, Leads step (path n) (path (n + 1)) := by
  constructor
  · intro h
    refine (ends_or_goes_on step a).imp_left fun ⟨c, hpath, hend⟩ => ⟨c, hpath, ?_⟩
    cases hc : step c with
    | none => rfl
    | some r =>
      cases r with
      | inl found =>
        obtain ⟨n, hn⟩ := exists_within_iff.2 ⟨c, hpath, hc⟩
        rw [h n] at hn
        cases hn
      | inr next => exact absurd hc (hend next)
  · intro h n
    cases hn : within step n a with
    | none => rfl
    | some found =>
      obtain ⟨c, hpath, hc⟩ := exists_within_iff.1 ⟨n, hn⟩
      have hend : ∀ d, ¬ Leads step c d := fun d hd => by
        rw [Leads, hc] at hd
        cases hd
      obtain ⟨d, hpath', hd⟩ | ⟨path, rfl, hsteps⟩ := h
      · -- the path would end both where something is found and where nothing is
        have hend' : ∀ e, ¬ Leads step d e := fun e he => by
          rw [Leads, hd] at he
          cases he
        rw [end_unique hpath hpath' hend hend', hd] at hc
        cases hc
      · obtain ⟨d, hd⟩ := exists_leads_of_path hsteps hpath
        exact absurd hd (hend d)

end ShaderLink.Walk
