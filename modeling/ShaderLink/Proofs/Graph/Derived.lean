import ShaderLink.Proofs.Graph.Settling

/-!
# Chains that have the types of their members

In a graph of **derived** chains every chain has the types of its members, or is marked stale if
they cannot be derived (`Graph.Derived`). The steps of edits keep chains derived:

* an object that is inserted is no member of any chain yet (`Derived.insert`);
* whatever is not a chain keeps its signature when it is revised (`Derived.revise`), and variables
  have none (`Derived.assign`);
* where an object is removed, the chains that took a type from it are marked stale and keep the
  types they had, which nobody else has to be told (`Derived.discard`);
* a chain that gets other members may get other types, and the touch passes them on as long as its
  walk is in order (`Derived.rechain`).
-/

namespace ShaderLink

namespace Graph

/-- **Derived chains**: each has the types of its members, none is a member of itself, and members
have identifiers below a bound. -/
structure Derived (g : Graph) (bound : Nat) : Prop where
  types : ∀ y c, g.find? y = some (.chain c) → g.rederive c = c
  irreflexive : ∀ y, y ∉ g.membersOf y
  bounded : ∀ y, ∀ x ∈ g.membersOf y, x.index < bound

/-- Whether other members would give a chain another signature. -/
def Resigns (g : Graph) (id : ObjectId) (members : List ObjectId) : Prop :=
  ∃ c, g.find? id = some (.chain c) ∧ (g.rederive { c with members }).signature ≠ c.signature

variable {g g' : Graph} {id x y : ObjectId} {o o' : Object} {c : Chain} {bound : Nat}
  {removed added : List ObjectId} {moving : Prop}

theorem derived_empty (bound : Nat) : Derived .empty bound where
  types := fun y c hc => by simp [empty, find?] at hc
  irreflexive := fun y hy => by simp [empty, membersOf, find?] at hy
  bounded := fun y x hx => by simp [empty, membersOf, find?] at hx

theorem Derived.mono {bound' : Nat} (h : g.Derived bound) (hbound : bound ≤ bound') :
    g.Derived bound' :=
  { h with bounded := fun y x hx => Nat.lt_of_lt_of_le (h.bounded y x hx) hbound }

/-- Chains stay derived where they stay as they are and so do all signatures. -/
theorem Derived.congr (h : g.Derived bound) (hsignature : ∀ x, g'.signature? x = g.signature? x)
    (hchain : ∀ y c, g'.find? y = some (.chain c) → g.find? y = some (.chain c)) :
    g'.Derived bound where
  types := by
    intro y c hc
    rw [rederive_congr fun x _ => hsignature x]
    exact h.types y c (hchain y c hc)
  irreflexive := fun y hy => h.irreflexive y (mem_membersOf_of_chains hchain hy)
  bounded := fun y x hx => h.bounded y x (mem_membersOf_of_chains hchain hx)

/-- Where an object takes the place of another with the same signature, all signatures stay. -/
theorem signature?_of_replaced (ho : g.find? id = some o) (ho' : g'.find? id = some o')
    (hother : ∀ x, id ≠ x → g'.find? x = g.find? x) (hsignature : o'.signature? = o.signature?)
    (x : ObjectId) : g'.signature? x = g.signature? x := by
  rw [signature?, signature?]
  by_cases hx : id = x
  · subst hx
    rw [ho', ho]
    exact hsignature
  · rw [hother x hx]

/-- Where an object that is no chain takes the place of another, all chains were there before. -/
theorem find?_chain_of_replaced (ho' : g'.find? id = some o')
    (hother : ∀ x, id ≠ x → g'.find? x = g.find? x) (hchain : ∀ c, o' ≠ .chain c) (y : ObjectId)
    (c : Chain) (hc : g'.find? y = some (.chain c)) : g.find? y = some (.chain c) := by
  have hy : id ≠ y := by
    rintro rfl
    rw [ho'] at hc
    exact hchain c (Option.some.inj hc)
  rwa [hother y hy] at hc

/-- Chains stay derived where one object becomes another that has the same signature and is not a
chain. -/
theorem Derived.replace (h : g.Derived bound) (ho : g.find? id = some o)
    (ho' : g'.find? id = some o') (hother : ∀ x, id ≠ x → g'.find? x = g.find? x)
    (hsignature : o'.signature? = o.signature?) (hchain : ∀ c, o' ≠ .chain c) :
    g'.Derived bound :=
  h.congr (signature?_of_replaced ho ho' hother hsignature)
    (find?_chain_of_replaced ho' hother hchain)

/-- A touch that settles everything leaves chains derived. -/
theorem Settling.derived (h : g.Settling moving fun z => id ∈ g.membersOf z) (hexact : g.Exact)
    (hself : ∀ z, z ∉ g.membersOf z) (hbound : ∀ y, ∀ x ∈ g.membersOf y, x.index < bound)
    (horder : moving → g.Orderly id) : (g.touch id).Derived bound where
  types := fun y c hc =>
    (h.touch hexact hself horder y c hc).resolve_right fun hpending => hpending.1
  irreflexive := membersOf_touch.symm ▸ hself
  bounded := membersOf_touch.symm ▸ hbound

/-- A touch finds nothing to do where chains are derived. -/
theorem Derived.touch (h : g.Derived bound) (hexact : g.Exact) (id : ObjectId) :
    (g.touch id).Derived bound := by
  have hsettling : g.Settling False fun z => id ∈ g.membersOf z :=
    fun y c hc => .inl (h.types y c hc)
  exact hsettling.derived hexact h.irreflexive h.bounded False.elim

/-! ### Inserting objects -/

/-- **An object is inserted.** No chain has it as a member yet. -/
theorem Derived.insert (h : g.Derived id.index)
    (hchain : ∀ c, o = .chain c → g.rederive c = c ∧ ∀ x ∈ c.members, x.index < id.index) :
    (g.insert id o).Derived (id.index + 1) := by
  have hsignature : ∀ x : ObjectId, x.index < id.index →
      (g.insert id o).signature? x = g.signature? x := by
    intro x hx
    have hne : id ≠ x := by
      rintro rfl
      exact Nat.lt_irrefl _ hx
    rw [signature?, signature?, find?_insert_of_ne hne]
  -- a chain after the insertion is derived, and all its members were there before
  have hkey : ∀ y c, (g.insert id o).find? y = some (.chain c) →
      g.rederive c = c ∧ y ∉ c.members ∧ ∀ x ∈ c.members, x.index < id.index := by
    intro y c hc
    by_cases hy : id = y
    · subst hy
      rw [find?_insert_self] at hc
      obtain ⟨hderived, hbelow⟩ := hchain c (Option.some.inj hc)
      exact ⟨hderived, fun hid => Nat.lt_irrefl _ (hbelow id hid), hbelow⟩
    · rw [find?_insert_of_ne hy] at hc
      have hself : y ∉ g.membersOf y := h.irreflexive y
      have hbelow : ∀ x ∈ g.membersOf y, x.index < id.index := h.bounded y
      rw [membersOf_of_chain hc] at hself hbelow
      exact ⟨h.types y c hc, hself, hbelow⟩
  constructor
  · intro y c hc
    obtain ⟨hderived, -, hbelow⟩ := hkey y c hc
    rw [rederive_congr fun x hx => hsignature x (hbelow x hx), hderived]
  · intro y hy
    obtain ⟨c, hc, hyc⟩ := exists_chain_of_mem hy
    exact (hkey y c hc).2.1 hyc
  · intro y x hx
    obtain ⟨c, hc, hxc⟩ := exists_chain_of_mem hx
    exact Nat.lt_succ_of_lt ((hkey y c hc).2.2 x hxc)

/-! ### Revising and removing objects -/

/-- **An object that is not a chain is revised.** -/
theorem Derived.revise (h : g.Derived bound) (hexact : (g.revise id o' removed added).Exact)
    (ho : g.find? id = some o) (hrev : o.Revised o') (hchain : ∀ c, o ≠ .chain c) :
    ((g.revise id o' removed added).touch id).Derived bound := by
  obtain ⟨hsignature, hchain'⟩ := hrev.signature?_eq hchain
  have hrevised : (g.revise id o' removed added).Derived bound :=
    h.replace ho (find?_revise_self ho) (fun x hx => find?_revise_of_ne hx) hsignature hchain'
  exact hrevised.touch hexact id

/-- **A variable takes a value.** -/
theorem Derived.assign {v : Variable} {value : Value} (h : g.Derived bound)
    (hv : g.find? id = some (.var v)) :
    (g.setObject id (.var (v.store value))).advance.Derived bound := by
  have hself : (g.setObject id (.var (v.store value))).advance.find? id =
      some (.var (v.store value)) := find?_setObject_self hv _
  exact h.replace hv hself (fun x hx => find?_setObject_of_ne hx) rfl fun c => Object.noConfusion

/-- Where signatures go, the types of a chain are as they were or cannot be derived. -/
theorem rederive_of_gone (h : ∀ x, g'.signature? x = none ∨ g'.signature? x = g.signature? x)
    (c : Chain) : g'.rederive c = g.rederive c ∨ g'.rederive c = { c with stale := true } := by
  rw [rederive_eq g, rederive_eq g', toOption_deriveTypes, toOption_deriveTypes]
  cases c.members.head? with
  | none => exact .inl rfl
  | some first =>
    cases c.members.getLast? with
    | none => exact .inl rfl
    | some last =>
      dsimp only
      obtain hfirst | hfirst := h first
      · rw [hfirst]
        exact .inr rfl
      · obtain hlast | hlast := h last
        · rw [hlast]
          cases g'.signature? first <;> exact .inr rfl
        · rw [hfirst, hlast]
          exact .inl rfl

/-- **An object is removed.** Chains that took a type from it are marked stale, and keep the types
that they had. -/
theorem Derived.discard (h : g.Derived bound) (hexact : (g.discard id o).Exact) :
    ((g.discard id o).touch id).Derived bound := by
  have hchain : ∀ y c, (g.discard id o).find? y = some (.chain c) →
      g.find? y = some (.chain c) := by
    intro y c hc
    have hy : id ≠ y := by
      rintro rfl
      rw [find?_discard_self] at hc
      cases hc
    rwa [find?_discard_of_ne hy] at hc
  have hgone : ∀ x, (g.discard id o).signature? x = none ∨
      (g.discard id o).signature? x = g.signature? x := by
    intro x
    rw [signature?, signature?]
    by_cases hx : id = x
    · subst hx
      rw [find?_discard_self]
      exact .inl rfl
    · rw [find?_discard_of_ne hx]
      exact .inr rfl
  have hsettling : (g.discard id o).Settling False fun z => id ∈ (g.discard id o).membersOf z := by
    intro y c hc
    have hderived : g.rederive c = c := h.types y c (hchain y c hc)
    by_cases hid : id ∈ c.members
    · -- a chain that can no longer be derived keeps its signature
      obtain hsame | hstale := rederive_of_gone hgone c
      · exact .inl (hsame.trans hderived)
      · have hmember : id ∈ (g.discard id o).membersOf y := by rwa [membersOf_of_chain hc]
        refine .inr ⟨hmember, .inr ?_⟩
        rw [hstale]
    · have hsame : (g.discard id o).rederive c = g.rederive c := by
        apply rederive_congr
        intro x hx
        have hne : id ≠ x := (ne_of_mem_of_not_mem hx hid).symm
        rw [signature?, signature?, find?_discard_of_ne hne]
      exact .inl (hsame.trans hderived)
  exact hsettling.derived hexact
    (fun z hz => h.irreflexive z (mem_membersOf_of_chains hchain hz))
    (fun y x hx => h.bounded y x (mem_membersOf_of_chains hchain hx)) False.elim

/-! ### Other members -/

section

variable (hc : g.find? id = some (.chain c)) (members removed added : List ObjectId)

include hc

/-- A chain has the signature it had until its types are derived again. -/
theorem signature?_rechain (x : ObjectId) :
    (g.revise id (.chain { c with members }) removed added).signature? x = g.signature? x := by
  rw [signature?, signature?]
  by_cases hx : id = x
  · subst hx
    rw [find?_revise_self hc, hc]
    rfl
  · rw [find?_revise_of_ne hx]

theorem membersOf_rechain (y : ObjectId) :
    (g.revise id (.chain { c with members }) removed added).membersOf y =
      if id = y then members else g.membersOf y := by
  by_cases hy : id = y
  · subst hy
    rw [if_pos rfl, membersOf_of_chain (find?_revise_self hc)]
  · rw [if_neg hy, membersOf_congr (find?_revise_of_ne hy)]

/-- All that is to be derived are the types of the chain that got other members. -/
theorem Derived.settling_rechain (h : g.Derived bound) (pending : ObjectId → Prop) :
    (g.revise id (.chain { c with members }) removed added).Settling (g.Resigns id members)
      fun z => z = id ∨ pending z := by
  intro y d hd
  rw [rederive_congr fun x _ => signature?_rechain hc members removed added x]
  by_cases hy : id = y
  · subst hy
    rw [find?_revise_self hc] at hd
    obtain rfl := Object.chain.inj (Option.some.inj hd)
    refine .inr ⟨.inl rfl, ?_⟩
    by_cases hsame : (g.rederive { c with members }).signature = c.signature
    · exact .inr hsame
    · exact .inl ⟨c, hc, hsame⟩
  · rw [find?_revise_of_ne hy] at hd
    exact .inl (h.types y d hd)

/-- **A chain gets other members.** If that gives it another signature, the walk that passes the
change on has to come to every chain after its members. -/
theorem Derived.rechain (h : g.Derived bound) (hmembers : ∀ x ∈ members, x ≠ id ∧ x.index < bound)
    (hexact : (g.revise id (.chain { c with members }) removed added).Exact)
    (horder : g.Resigns id members →
      (((g.revise id (.chain { c with members }) removed added).refresh id).2.touch id).Orderly
        id) :
    (((g.revise id (.chain { c with members }) removed added).refresh id).2.touch id).Derived
      bound := by
  have hsettling := h.settling_rechain hc members removed added
  have hmembersOf := membersOf_rechain hc members removed added
  generalize g.revise id (.chain { c with members }) removed added = g' at *
  have hirreflexive : ∀ y, y ∉ g'.membersOf y := by
    intro y hy
    rw [hmembersOf] at hy
    split at hy
    · next heq => exact (hmembers y hy).1 heq.symm
    · exact h.irreflexive y hy
  have hbounded : ∀ y, ∀ x ∈ g'.membersOf y, x.index < bound := by
    intro y x hx
    rw [hmembersOf] at hx
    split at hx
    · exact (hmembers x hx).2
    · exact h.bounded y x hx
  -- once its types are derived, only the chains it is a member of are pending
  have hrefreshed : (g'.refresh id).2.Settling (g.Resigns id members)
      fun z => id ∈ g'.membersOf z := (hsettling _).refresh (hirreflexive id) fun _ _ z hz => hz
  have hrefresh := retyping_refresh g' id
  rw [← membersOf_refresh] at hirreflexive hbounded hrefreshed
  apply hrefreshed.derived (hrefresh.exact hexact) hirreflexive hbounded
  intro hmoves
  exact orderly_touch_iff.1 (horder hmoves)

end

end Graph

end ShaderLink
