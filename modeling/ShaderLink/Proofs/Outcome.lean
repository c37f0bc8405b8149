import Mathlib.Order.Defs.Unbundled
import ShaderLink.LinkError

/-!
# Outcomes of operations

Operations either answer or fail (`Except`), and most of them leave a state behind in both cases
(`EStateM`). The lemmas of this module take a sequence of operations apart at its first step. Two
operations **agree** if they answer the same wherever both answer (`Agree`), and are **related** if
their answers are and their errors are (`Related`). An operation **fails only** so if its errors have
some property (`FailsOnly`).

`stateAfter` is the state that an operation leaves, whatever its outcome, and `outcome` is its
outcome without the state. From every state with a property, which it leaves behind, an operation
may **answer** (`Answers`) or **yield** one outcome (`Yields`). It **repeats** if it answers the
same again (`Repeats`). All three are read off the steps of an operation.
-/

namespace ShaderLink

universe u

section Except

variable {ε α β : Type u}

@[simp] theorem Except.pure_eq (a : α) : (pure a : Except ε α) = .ok a := rfl

@[simp] theorem Except.throw_eq (e : ε) : (throw e : Except ε α) = .error e := rfl

@[simp] theorem Except.ok_bind (a : α) (f : α → Except ε β) : (Except.ok a >>= f) = f a := rfl

@[simp] theorem Except.error_bind (e : ε) (f : α → Except ε β) :
    (Except.error e >>= f) = Except.error e := rfl

/-- A sequence answers when its first step does and the rest answers from there. -/
theorem Except.bind_eq_ok_iff {x : Except ε α} {f : α → Except ε β} {b : β} :
    x >>= f = .ok b ↔ ∃ a, x = .ok a ∧ f a = .ok b := by
  cases x <;> simp

/-- A sequence answers if its first step does and the rest answers from there. -/
theorem Except.exists_bind_eq_ok {x : Except ε α} {f : α → Except ε β}
    (hx : ∃ a, x = .ok a) (hf : ∀ a, x = .ok a → ∃ b, f a = .ok b) : ∃ b, x >>= f = .ok b := by
  obtain ⟨a, rfl⟩ := hx
  exact hf a rfl

theorem Except.map_eq_ok_iff {x : Except ε α} {f : α → β} {b : β} :
    f <$> x = .ok b ↔ ∃ a, x = .ok a ∧ f a = b := by
  cases x <;> simp [Functor.map, Except.map]

theorem Except.toOption_eq_some_iff {x : Except ε α} {a : α} : x.toOption = some a ↔ x = .ok a := by
  cases x <;> simp [Except.toOption]

/-- A list of operations answers if each of them does. -/
theorem exists_mapM_eq_ok {f : α → Except ε β} {l : List α} (h : ∀ a ∈ l, ∃ b, f a = .ok b) :
    ∃ bs, l.mapM f = .ok bs := by
  induction l with
  | nil => exact ⟨[], rfl⟩
  | cons a l ih =>
    obtain ⟨b, hb⟩ := h a List.mem_cons_self
    obtain ⟨bs, hbs⟩ := ih fun c hc => h c (List.mem_cons_of_mem a hc)
    exact ⟨b :: bs, by simp [List.mapM_cons, hb, hbs]⟩

/-- A list of operations with known answers answers with all of them. -/
theorem mapM_eq_ok_map {f : α → Except ε β} {g : α → β} {l : List α}
    (h : ∀ a ∈ l, f a = .ok (g a)) : l.mapM f = .ok (l.map g) := by
  induction l with
  | nil => rfl
  | cons a l ih =>
    have hl := ih fun b hb => h b (List.mem_cons_of_mem a hb)
    simp [List.mapM_cons, h a List.mem_cons_self, hl]

/-- Where a list of operations answers, each of them does. -/
theorem exists_eq_ok_of_mapM {f : α → Except ε β} {l : List α} {bs : List β}
    (h : l.mapM f = .ok bs) : ∀ a ∈ l, ∃ b, f a = .ok b := by
  induction l generalizing bs with
  | nil => nofun
  | cons a l ih =>
    rw [List.mapM_cons] at h
    obtain ⟨b, hb, h⟩ := Except.bind_eq_ok_iff.1 h
    obtain ⟨bs', hbs', -⟩ := Except.bind_eq_ok_iff.1 h
    exact List.forall_mem_cons.2 ⟨⟨b, hb⟩, ih hbs'⟩

/-- A list of operations fails with the error of the first one that fails. -/
theorem mapM_eq_error_iff {f : α → Except ε β} {l : List α} {e : ε} :
    l.mapM f = .error e ↔ ∃ before a after, l = before ++ a :: after ∧
      (∀ b ∈ before, ∃ v, f b = .ok v) ∧ f a = .error e := by
  induction l with
  | nil => simp
  | cons a l ih =>
    rw [List.mapM_cons]
    cases ha : f a with
    | error e' =>
      constructor
      · rintro ⟨⟩
        exact ⟨[], a, l, rfl, nofun, ha⟩
      · rintro ⟨before, a', after, hl, hbefore, ha'⟩
        cases before with
        | nil =>
          obtain ⟨rfl, -⟩ := List.cons.inj hl
          exact congrArg Except.error (Except.error.inj (ha.symm.trans ha'))
        | cons b before =>
          obtain ⟨rfl, -⟩ := List.cons.inj hl
          obtain ⟨v, hv⟩ := hbefore _ List.mem_cons_self
          rw [ha] at hv
          cases hv
    | ok v =>
      have hmap : l.mapM f = .error e ↔
          (do let v ← Except.ok v; let vs ← l.mapM f; return v :: vs) = Except.error e := by
        cases l.mapM f <;> simp
      rw [← hmap, ih]
      constructor
      · rintro ⟨before, a', after, rfl, hbefore, ha'⟩
        exact ⟨a :: before, a', after, rfl, List.forall_mem_cons.2 ⟨⟨v, ha⟩, hbefore⟩, ha'⟩
      · rintro ⟨before, a', after, hl, hbefore, ha'⟩
        cases before with
        | nil =>
          obtain ⟨rfl, -⟩ := List.cons.inj hl
          rw [ha] at ha'
          cases ha'
        | cons b before =>
          obtain ⟨rfl, rfl⟩ := List.cons.inj hl
          exact ⟨before, a', after, rfl, fun b hb => hbefore b (List.mem_cons_of_mem _ hb), ha'⟩

/-- **The same answer wherever both answer.** -/
def Agree (x x' : Except ε α) : Prop := ∀ a a', x = .ok a → x' = .ok a' → a = a'

theorem Agree.refl (x : Except ε α) : Agree x x := by
  intro a a' ha ha'
  rw [ha] at ha'
  exact Except.ok.inj ha'

/-- What comes after the first steps only has to agree where both of them answer. -/
theorem agree_bind {x x' : Except ε α} {f f' : α → Except ε β}
    (h : ∀ a a', x = .ok a → x' = .ok a' → Agree (f a) (f' a')) : Agree (x >>= f) (x' >>= f') := by
  intro b b' hb hb'
  obtain ⟨a, ha, hb⟩ := Except.bind_eq_ok_iff.1 hb
  obtain ⟨a', ha', hb'⟩ := Except.bind_eq_ok_iff.1 hb'
  exact h a a' ha ha' b b' hb hb'

theorem Agree.bind {x x' : Except ε α} {f f' : α → Except ε β} (hx : Agree x x')
    (hf : ∀ a, Agree (f a) (f' a)) : Agree (x >>= f) (x' >>= f') := by
  refine agree_bind fun a a' ha ha' => ?_
  obtain rfl := hx a a' ha ha'
  exact hf a

theorem Agree.map {x x' : Except ε α} (hx : Agree x x') (f : α → β) :
    Agree (f <$> x) (f <$> x') := by
  intro b b' hb hb'
  obtain ⟨a, ha, rfl⟩ := Except.map_eq_ok_iff.1 hb
  obtain ⟨a', ha', rfl⟩ := Except.map_eq_ok_iff.1 hb'
  rw [hx a a' ha ha']

theorem agree_mapM {f f' : α → Except ε β} {l : List α} (h : ∀ a ∈ l, Agree (f a) (f' a)) :
    Agree (l.mapM f) (l.mapM f') := by
  induction l with
  | nil => exact .refl _
  | cons a l ih =>
    rw [List.mapM_cons, List.mapM_cons]
    exact (h a List.mem_cons_self).bind fun b =>
      (ih fun c hc => h c (List.mem_cons_of_mem a hc)).bind fun bs => .refl _

/-! ### Failures -/

/-- **Failing only so**: the errors of an operation have a property. -/
def FailsOnly (p : ε → Prop) (x : Except ε α) : Prop := ∀ e, x = .error e → p e

variable {p : ε → Prop}

theorem failsOnly_ok (a : α) : FailsOnly p (.ok a : Except ε α) := nofun

theorem failsOnly_of_ok {x : Except ε α} (h : ∃ a, x = .ok a) : FailsOnly p x := by
  obtain ⟨a, rfl⟩ := h
  exact failsOnly_ok a

theorem failsOnly_error {e : ε} (h : p e) : FailsOnly p (.error e : Except ε α) := by
  rintro e' ⟨⟩
  exact h

theorem FailsOnly.bind {x : Except ε α} {f : α → Except ε β} (hx : FailsOnly p x)
    (hf : ∀ a, x = .ok a → FailsOnly p (f a)) : FailsOnly p (x >>= f) := by
  cases x with
  | ok a => exact hf a rfl
  | error e => exact failsOnly_error (hx e rfl)

/-- A sequence fails wherever its first step does. -/
theorem FailsOnly.first {x : Except ε α} {f : α → Except ε β} (h : FailsOnly p (x >>= f)) :
    FailsOnly p x := by
  rintro e rfl
  exact h e rfl

theorem failsOnly_mapM {f : α → Except ε β} {l : List α} (h : ∀ a ∈ l, FailsOnly p (f a)) :
    FailsOnly p (l.mapM f) := by
  induction l with
  | nil => exact failsOnly_ok []
  | cons a l ih =>
    rw [List.mapM_cons]
    exact (h a List.mem_cons_self).bind fun b _ =>
      (ih fun c hc => h c (List.mem_cons_of_mem a hc)).bind fun bs _ => failsOnly_ok (b :: bs)

/-- A list of operations that fails only so answers the same with other operations, if these answer
the same wherever the first ones fail only so. -/
theorem FailsOnly.mapM_eq {f f' : α → Except ε β} {l : List α}
    (h : ∀ a ∈ l, FailsOnly p (f a) → f' a = f a) (hl : FailsOnly p (l.mapM f)) :
    l.mapM f' = l.mapM f := by
  induction l with
  | nil => rfl
  | cons a l ih =>
    rw [List.mapM_cons] at hl ⊢
    rw [List.mapM_cons, h a List.mem_cons_self hl.first]
    cases ha : f a with
    | error e => rfl
    | ok b =>
      rw [ha, Except.ok_bind] at hl
      have htail : l.mapM f' = l.mapM f :=
        ih (fun c hc => h c (List.mem_cons_of_mem a hc)) hl.first
      rw [Except.ok_bind, Except.ok_bind, htail]

/-- If one list of operations fails only so and another does not, then so it is for some operation
of the lists. -/
theorem FailsOnly.exists_of_mapM {f f' : α → Except ε β} {l : List α}
    (h : ∀ a ∈ l, FailsOnly p (f a) → f' a = f a) (hl' : FailsOnly p (l.mapM f'))
    (hl : ¬ FailsOnly p (l.mapM f)) : ∃ a ∈ l, FailsOnly p (f' a) ∧ ¬ FailsOnly p (f a) := by
  refine Classical.byContradiction fun hnone => ?_
  -- otherwise the two lists would answer the same
  have heq : l.mapM f = l.mapM f' := by
    refine FailsOnly.mapM_eq (fun a ha hf' => ?_) hl'
    by_cases hf : FailsOnly p (f a)
    · exact (h a ha hf).symm
    · exact absurd ⟨a, ha, hf', hf⟩ hnone
  rw [heq] at hl
  exact hl hl'

theorem failsOnly_forIn {f : α → β → Except ε (ForInStep β)} {l : List α}
    (h : ∀ a ∈ l, ∀ b, FailsOnly p (f a b)) (b : β) : FailsOnly p (forIn l b f) := by
  induction l generalizing b with
  | nil => exact failsOnly_ok b
  | cons a l ih =>
    rw [List.forIn_cons]
    refine (h a List.mem_cons_self b).bind fun r _ => ?_
    cases r with
    | done b => exact failsOnly_ok b
    | yield b => exact ih (fun c hc => h c (List.mem_cons_of_mem a hc)) b

/-! ### Two operations -/

variable {ε' α' β' : Type u}

/-- **Related outcomes**: two operations have related answers or related errors. -/
inductive Related (q : ε → ε' → Prop) (r : α → α' → Prop) : Except ε α → Except ε' α' → Prop where
  | ok {a : α} {a' : α'} (h : r a a') : Related q r (.ok a) (.ok a')
  | error {e : ε} {e' : ε'} (h : q e e') : Related q r (.error e) (.error e')

variable {q : ε → ε' → Prop} {r : α → α' → Prop} {s : β → β' → Prop}

theorem Related.mono {r₁ : α → α' → Prop} {x : Except ε α} {x' : Except ε' α'}
    (hr : ∀ a a', r a a' → r₁ a a') (hx : Related q r x x') : Related q r₁ x x' := by
  cases hx with
  | ok h => exact .ok (hr _ _ h)
  | error h => exact .error h

/-- Answers and errors that are given by functions of others. -/
theorem Related.eq_map {e : ε → ε'} {k : α → α'} {x : Except ε α} {x' : Except ε' α'}
    (hx : Related (fun a b => b = e a) (fun a b => b = k a) x x') : x' = (x.map k).mapError e := by
  cases hx with
  | ok h => exact congrArg Except.ok h
  | error h => exact congrArg Except.error h

/-- Operations that answer the same and fail alike agree. -/
theorem Related.agree {q : ε → ε → Prop} {x x' : Except ε α} (hx : Related q Eq x x') :
    Agree x x' := by
  rintro a a' ha ha'
  subst ha ha'
  cases hx with
  | ok h => exact h

/-- Operations that agree and both answer answer the same. -/
theorem Agree.related {q : ε → ε → Prop} {x x' : Except ε α} (h : Agree x x')
    (hx : ∃ a, x = .ok a) (hx' : ∃ a, x' = .ok a) : Related q Eq x x' := by
  obtain ⟨a, rfl⟩ := hx
  obtain ⟨a', rfl⟩ := hx'
  exact .ok (h a a' rfl rfl)

/-- What comes after the first steps only has to be related where both of them answer. -/
theorem related_bind {x : Except ε α} {x' : Except ε' α'} {k : α → Except ε β}
    {k' : α' → Except ε' β'} (hx : Related q r x x')
    (hk : ∀ a a', x = .ok a → x' = .ok a' → r a a' → Related q s (k a) (k' a')) :
    Related q s (x >>= k) (x' >>= k') := by
  cases hx with
  | ok h => exact hk _ _ rfl rfl h
  | error h => exact .error h

theorem Related.bind {x : Except ε α} {x' : Except ε' α'} {k : α → Except ε β}
    {k' : α' → Except ε' β'} (hx : Related q r x x')
    (hk : ∀ a a', r a a' → x = .ok a → Related q s (k a) (k' a')) :
    Related q s (x >>= k) (x' >>= k') :=
  related_bind hx fun a a' ha _ h => hk a a' h ha

theorem Related.map {x : Except ε α} {x' : Except ε' α'} {k : α → β} {k' : α' → β'}
    (hx : Related q r x x') (hk : ∀ a a', r a a' → s (k a) (k' a')) :
    Related q s (k <$> x) (k' <$> x') := by
  cases hx with
  | ok h => exact .ok (hk _ _ h)
  | error h => exact .error h

/-- Operations on things and on other things in their place answer the same if each of them does. -/
theorem related_mapM {F : α → α'} {k : α → Except ε β} {k' : α' → Except ε' β} {l : List α}
    (h : ∀ a ∈ l, Related q Eq (k a) (k' (F a))) :
    Related q Eq (l.mapM k) ((l.map F).mapM k') := by
  induction l with
  | nil => exact .ok rfl
  | cons a l ih =>
    rw [List.map_cons, List.mapM_cons, List.mapM_cons]
    refine (h a List.mem_cons_self).bind fun b _ hb _ => ?_
    refine (ih fun c hc => h c (List.mem_cons_of_mem a hc)).bind fun bs _ hbs _ => ?_
    subst hb hbs
    exact .ok rfl

theorem related_optionMapM {F : α → α'} {k : α → Except ε β} {k' : α' → Except ε' β} {o : Option α}
    (h : ∀ a ∈ o, Related q Eq (k a) (k' (F a))) :
    Related q Eq (o.mapM k) ((o.map F).mapM k') := by
  cases o with
  | none => exact .ok rfl
  | some a =>
    rw [Option.map_some, Option.mapM_some, Option.mapM_some]
    refine (h a rfl).map fun b b' hb => ?_
    exact congrArg some hb

theorem related_forIn {F : α → α'} {k : α → β → Except ε (ForInStep β)}
    {k' : α' → β → Except ε' (ForInStep β)} {l : List α}
    (h : ∀ a ∈ l, ∀ b, Related q Eq (k a b) (k' (F a) b)) (b : β) :
    Related q Eq (forIn l b k) (forIn (l.map F) b k') := by
  induction l generalizing b with
  | nil => exact .ok rfl
  | cons a l ih =>
    rw [List.map_cons, List.forIn_cons, List.forIn_cons]
    refine (h a List.mem_cons_self b).bind fun step step' hstep _ => ?_
    subst hstep
    cases step with
    | done b => exact .ok rfl
    | yield b => exact ih (fun c hc => h c (List.mem_cons_of_mem a hc)) b

end Except

section EStateM

variable {ε σ α β : Type u}

/-- A sequence answers when its first step does and the rest answers from there. -/
theorem run_bind_eq_ok_iff {x : EStateM ε σ α} {f : α → EStateM ε σ β} {s u : σ} {b : β} :
    (x >>= f).run s = .ok b u ↔ ∃ a t, x.run s = .ok a t ∧ (f a).run t = .ok b u := by
  rw [EStateM.run_bind]
  constructor
  · intro h
    split at h
    · next a t hx => exact ⟨a, t, hx, h⟩
    · cases h
  · rintro ⟨a, t, hx, hf⟩
    rw [hx]
    exact hf

/-- A sequence fails when its first step does, or when that answers and the rest fails. -/
theorem run_bind_eq_error_iff {x : EStateM ε σ α} {f : α → EStateM ε σ β} {s u : σ} {e : ε} :
    (x >>= f).run s = .error e u ↔
      x.run s = .error e u ∨ ∃ a t, x.run s = .ok a t ∧ (f a).run t = .error e u := by
  rw [EStateM.run_bind]
  cases x.run s with
  | ok a t => simp [and_assoc]
  | error e' t => simp

/-- The state that an operation leaves, whether it answers or fails. -/
def stateAfter (x : EStateM ε σ α) (s : σ) : σ :=
  match x.run s with
  | .ok _ t => t
  | .error _ t => t

theorem stateAfter_bind (x : EStateM ε σ α) (f : α → EStateM ε σ β) (s : σ) :
    stateAfter (x >>= f) s =
      match x.run s with
      | .ok a t => stateAfter (f a) t
      | .error _ t => t := by
  unfold stateAfter
  rw [EStateM.run_bind]
  cases x.run s <;> rfl

/-- An answer that is put in the place of another leaves the state as it is. -/
theorem stateAfter_bind_pure (x : EStateM ε σ α) (b : β) (s : σ) :
    stateAfter (x >>= fun _ => pure b) s = stateAfter x s := by
  rw [stateAfter_bind]
  unfold stateAfter
  cases x.run s <;> rfl

theorem stateAfter_eq_of_ok {x : EStateM ε σ α} {s t : σ} {a : α} (h : x.run s = .ok a t) :
    stateAfter x s = t := by
  rw [stateAfter, h]

theorem stateAfter_eq_of_error {x : EStateM ε σ α} {s t : σ} {e : ε} (h : x.run s = .error e t) :
    stateAfter x s = t := by
  rw [stateAfter, h]

/-- The failure of an operation, if it fails. -/
def failure? (x : EStateM ε σ α) (s : σ) : Option ε :=
  match x.run s with
  | .ok _ _ => none
  | .error e _ => some e

theorem exists_run_of_failure? {x : EStateM ε σ α} {s : σ} {e : ε} (h : failure? x s = some e) :
    ∃ t, x.run s = .error e t := by
  unfold failure? at h
  cases hx : x.run s with
  | ok a t =>
    rw [hx] at h
    cases h
  | error e' t =>
    rw [hx] at h
    cases h
    exact ⟨t, rfl⟩

theorem exists_run_of_failure?_eq_none {x : EStateM ε σ α} {s : σ} (h : failure? x s = none) :
    ∃ a t, x.run s = .ok a t := by
  unfold failure? at h
  cases hx : x.run s with
  | ok a t => exact ⟨a, t, rfl⟩
  | error e t =>
    rw [hx] at h
    cases h

/-- What can be seen of an operation that succeeds, by its answer and the state it leaves. -/
def observed? (x : EStateM ε σ α) (s : σ) (view : α → σ → β) : Option β :=
  match x.run s with
  | .ok a t => some (view a t)
  | .error _ _ => none

theorem exists_run_of_observed? {x : EStateM ε σ α} {s : σ} {view : α → σ → β} {b : β}
    (h : observed? x s view = some b) : ∃ a t, x.run s = .ok a t ∧ view a t = b := by
  unfold observed? at h
  cases hx : x.run s with
  | ok a t =>
    rw [hx] at h
    exact ⟨a, t, rfl, Option.some.inj h⟩
  | error e t =>
    rw [hx] at h
    cases h

/-- What two operations do one after the other is what each of them does, for a relation that can be
chained. -/
theorem stateAfter_bind_rel {r : σ → σ → Prop} (htrans : ∀ {s t u}, r s t → r t u → r s u)
    {x : EStateM ε σ α} {f : α → EStateM ε σ β} {s : σ} (hx : r s (stateAfter x s))
    (hf : ∀ a t, x.run s = .ok a t → r t (stateAfter (f a) t)) : r s (stateAfter (x >>= f) s) := by
  rw [stateAfter_bind]
  cases hr : x.run s with
  | ok a t =>
    rw [stateAfter_eq_of_ok hr] at hx
    exact htrans hx (hf a t hr)
  | error e t => rwa [stateAfter_eq_of_error hr] at hx

/-- What the first of two operations leaves behind, the second keeps. -/
theorem stateAfter_bind_of {p q : σ → Prop} {x : EStateM ε σ α} {f : α → EStateM ε σ β} {s : σ}
    (hx : p (stateAfter x s)) (hpq : ∀ t, p t → q t)
    (hf : ∀ a t, p t → q (stateAfter (f a) t)) : q (stateAfter (x >>= f) s) := by
  rw [stateAfter_bind]
  cases hr : x.run s with
  | ok a t => exact hf a t (stateAfter_eq_of_ok hr ▸ hx)
  | error e t => exact hpq t (stateAfter_eq_of_error hr ▸ hx)

@[simp] theorem run_ofExcept_ok (a : α) (s : σ) :
    (MonadExcept.ofExcept (Except.ok a) : EStateM ε σ α).run s = .ok a s := rfl

@[simp] theorem run_ofExcept_error (e : ε) (s : σ) :
    (MonadExcept.ofExcept (Except.error e : Except ε α) : EStateM ε σ α).run s = .error e s := rfl

theorem run_forM_cons (f : α → EStateM ε σ PUnit) (a : α) (l : List α) (s : σ) :
    ((a :: l).forM f).run s = match (f a).run s with
      | .ok _ t => (l.forM f).run t
      | .error e t => .error e t := by
  change (f a >>= fun _ => l.forM f : EStateM ε σ PUnit).run s = _
  rw [EStateM.run_bind]
  cases (f a).run s <;> rfl

/-! ### Operations that keep a property -/

/-- **A property that is kept**, whether an operation answers or fails. -/
def Keeps (p : σ → Prop) (x : EStateM ε σ α) : Prop := ∀ s, p s → p (stateAfter x s)

section Keeps

variable {p : σ → Prop}

/-- What keeps a state leaves it as it is. -/
theorem keeps_self_iff {x : EStateM ε σ α} {s : σ} : Keeps (· = s) x ↔ stateAfter x s = s :=
  forall_eq

theorem keeps_pure (a : α) : Keeps p (pure a : EStateM ε σ α) := fun _ hs => hs

theorem keeps_ofExcept (y : Except ε α) :
    Keeps p (MonadExcept.ofExcept y : EStateM ε σ α) := by
  cases y <;> exact fun _ hs => hs

theorem keeps_get_bind {f : σ → EStateM ε σ α} (hf : ∀ s, Keeps p (f s)) : Keeps p (get >>= f) :=
  fun s hs => hf s s hs

theorem Keeps.bind {x : EStateM ε σ α} {f : α → EStateM ε σ β} (hx : Keeps p x)
    (hf : ∀ a, Keeps p (f a)) : Keeps p (x >>= f) :=
  fun s hs => stateAfter_bind_of (hx s hs) (fun _ ht => ht) fun a t ht => hf a t ht

theorem keeps_mapM {f : α → EStateM ε σ β} {l : List α} (h : ∀ a ∈ l, Keeps p (f a)) :
    Keeps p (l.mapM f) := by
  induction l with
  | nil => exact keeps_pure []
  | cons a l ih =>
    rw [List.mapM_cons]
    exact (h a List.mem_cons_self).bind fun b =>
      (ih fun c hc => h c (List.mem_cons_of_mem a hc)).bind fun bs => keeps_pure (b :: bs)

theorem keeps_optionMapM {f : α → EStateM ε σ β} {o : Option α} (h : ∀ a ∈ o, Keeps p (f a)) :
    Keeps p (o.mapM f) := by
  cases o with
  | none => exact keeps_pure none
  | some a =>
    rw [Option.mapM_some, map_eq_pure_bind]
    exact (h a rfl).bind fun b => keeps_pure (some b)

end Keeps

/-! ### Answers -/

/-- **An answer** from every state with a property, which is left behind. -/
def Answers (p : σ → Prop) (x : EStateM ε σ α) : Prop :=
  ∀ s, p s → ∃ a t, x.run s = .ok a t ∧ p t

variable {p : σ → Prop}

theorem answers_pure (a : α) : Answers p (pure a : EStateM ε σ α) :=
  fun s hs => ⟨a, s, rfl, hs⟩

theorem answers_ofExcept {y : Except ε α} (h : ∃ a, y = .ok a) :
    Answers p (MonadExcept.ofExcept y : EStateM ε σ α) := by
  obtain ⟨a, rfl⟩ := h
  exact fun s hs => ⟨a, s, rfl, hs⟩

theorem answers_get_bind {f : σ → EStateM ε σ α} (h : ∀ s, p s → Answers p (f s)) :
    Answers p (get >>= f) :=
  fun s hs => h s hs s hs

theorem Answers.bind {x : EStateM ε σ α} {f : α → EStateM ε σ β} (hx : Answers p x)
    (hf : ∀ a, Answers p (f a)) : Answers p (x >>= f) := by
  intro s hs
  obtain ⟨a, t, hrun, ht⟩ := hx s hs
  obtain ⟨b, u, hrest, hu⟩ := hf a t ht
  exact ⟨b, u, run_bind_eq_ok_iff.2 ⟨a, t, hrun, hrest⟩, hu⟩

theorem answers_mapM {f : α → EStateM ε σ β} {l : List α} (h : ∀ a ∈ l, Answers p (f a)) :
    Answers p (l.mapM f) := by
  induction l with
  | nil => exact answers_pure []
  | cons a l ih =>
    rw [List.mapM_cons]
    exact (h a List.mem_cons_self).bind fun b =>
      (ih fun c hc => h c (List.mem_cons_of_mem a hc)).bind fun bs => answers_pure (b :: bs)

theorem answers_optionMapM {f : α → EStateM ε σ β} {o : Option α} (h : ∀ a ∈ o, Answers p (f a)) :
    Answers p (o.mapM f) := by
  cases o with
  | none => exact answers_pure none
  | some a =>
    rw [Option.mapM_some, map_eq_pure_bind]
    exact (h a rfl).bind fun b => answers_pure (some b)

/-! ### Outcomes -/

/-- What an operation answers, or why it fails. -/
def outcome (x : EStateM ε σ α) (s : σ) : Except ε α :=
  match x.run s with
  | .ok a _ => .ok a
  | .error e _ => .error e

theorem exists_run_of_outcome {x : EStateM ε σ α} {s : σ} {a : α} (h : outcome x s = .ok a) :
    ∃ t, x.run s = .ok a t := by
  unfold outcome at h
  cases hrun : x.run s with
  | ok b t =>
    rw [hrun] at h
    obtain rfl := Except.ok.inj h
    exact ⟨t, rfl⟩
  | error e t =>
    rw [hrun] at h
    cases h

/-- **The same outcome** from every state with a property, which is left behind. -/
def Yields (p : σ → Prop) (x : EStateM ε σ α) (y : Except ε α) : Prop :=
  ∀ s, p s → outcome x s = y ∧ p (stateAfter x s)

theorem yields_pure (a : α) : Yields p (pure a : EStateM ε σ α) (.ok a) :=
  fun _ hs => ⟨rfl, hs⟩

theorem yields_ofExcept (y : Except ε α) :
    Yields p (MonadExcept.ofExcept y : EStateM ε σ α) y := by
  cases y <;> exact fun _ hs => ⟨rfl, hs⟩

/-- The state that is read has the property. -/
theorem yields_get_bind {f : σ → EStateM ε σ α} {y : Except ε α}
    (h : ∀ s, p s → Yields p (f s) y) : Yields p (get >>= f) y :=
  fun s hs => h s hs s hs

theorem Yields.bind {x : EStateM ε σ α} {f : α → EStateM ε σ β} {y : Except ε α}
    {z : α → Except ε β} (hx : Yields p x y) (hf : ∀ a, y = .ok a → Yields p (f a) (z a)) :
    Yields p (x >>= f) (y >>= z) := by
  intro s hs
  obtain ⟨hy, hp⟩ := hx s hs
  unfold outcome stateAfter at *
  rw [EStateM.run_bind]
  -- the rest runs from a state with the property only if the first step answers
  cases hrun : x.run s with
  | ok a t =>
    rw [hrun] at hy hp
    dsimp only at hy hp
    subst hy
    exact hf a rfl t hp
  | error e t =>
    rw [hrun] at hy hp
    dsimp only at hy hp
    subst hy
    exact ⟨rfl, hp⟩

theorem yields_mapM {f : α → EStateM ε σ β} {y : α → Except ε β} {l : List α}
    (h : ∀ a ∈ l, Yields p (f a) (y a)) : Yields p (l.mapM f) (l.mapM y) := by
  induction l with
  | nil => exact yields_pure []
  | cons a l ih =>
    rw [List.mapM_cons, List.mapM_cons]
    exact (h a List.mem_cons_self).bind fun b _ =>
      (ih fun c hc => h c (List.mem_cons_of_mem a hc)).bind fun bs _ => yields_pure (b :: bs)

theorem yields_optionMapM {f : α → EStateM ε σ β} {y : α → Except ε β} {o : Option α}
    (h : ∀ a ∈ o, Yields p (f a) (y a)) : Yields p (o.mapM f) (o.mapM y) := by
  cases o with
  | none => exact yields_pure none
  | some a =>
    rw [Option.mapM_some, Option.mapM_some, map_eq_pure_bind, map_eq_pure_bind]
    exact (h a rfl).bind fun b _ => yields_pure (some b)

/-! ### Repetition -/

/-- **The same answer again**: an operation that answers leads to a later state, and from every
state later than that it answers the same and changes nothing. -/
def Repeats (later : σ → σ → Prop) (x : EStateM ε σ α) : Prop :=
  ∀ s a t, x.run s = .ok a t → later s t ∧ ∀ u, later t u → x.run u = .ok a u

variable {later : σ → σ → Prop} [IsPreorder σ later]

theorem repeats_pure (a : α) : Repeats later (pure a : EStateM ε σ α) := by
  intro s b t h
  cases h
  exact ⟨refl s, fun u _ => rfl⟩

theorem repeats_ofExcept (y : Except ε α) :
    Repeats later (MonadExcept.ofExcept y : EStateM ε σ α) := by
  intro s b t h
  cases y with
  | error e => cases h
  | ok a =>
    cases h
    exact ⟨refl s, fun u _ => rfl⟩

/-- What is read of the state is the same later. -/
theorem repeats_get_bind {f : σ → EStateM ε σ α} (hf : ∀ s, Repeats later (f s))
    (hsame : ∀ s t, later s t → f t = f s) : Repeats later (get >>= f) := by
  intro s a t h
  obtain ⟨hlater, hagain⟩ := hf s s a t h
  refine ⟨hlater, fun u hu => ?_⟩
  change (f u).run u = _
  rw [hsame s u (Trans.trans hlater hu)]
  exact hagain u hu

theorem Repeats.bind {x : EStateM ε σ α} {f : α → EStateM ε σ β} (hx : Repeats later x)
    (hf : ∀ a, Repeats later (f a)) : Repeats later (x >>= f) := by
  intro s b u h
  obtain ⟨a, t, hrun, h⟩ := run_bind_eq_ok_iff.1 h
  obtain ⟨hst, hxagain⟩ := hx s a t hrun
  obtain ⟨htu, hfagain⟩ := hf a t b u h
  -- what is later than the last state is also later than the one in between
  refine ⟨Trans.trans hst htu, fun v hv => run_bind_eq_ok_iff.2 ⟨a, v, ?_, hfagain v hv⟩⟩
  exact hxagain v (Trans.trans htu hv)

theorem repeats_mapM {f : α → EStateM ε σ β} (hf : ∀ a, Repeats later (f a)) (l : List α) :
    Repeats later (l.mapM f) := by
  induction l with
  | nil => exact repeats_pure []
  | cons a l ih =>
    rw [List.mapM_cons]
    exact (hf a).bind fun b => ih.bind fun bs => repeats_pure (b :: bs)

theorem repeats_optionMapM {f : α → EStateM ε σ β} (hf : ∀ a, Repeats later (f a))
    (o : Option α) : Repeats later (o.mapM f) := by
  cases o with
  | none => exact repeats_pure none
  | some a =>
    rw [Option.mapM_some, map_eq_pure_bind]
    exact (hf a).bind fun b => repeats_pure (some b)

end EStateM

end ShaderLink
