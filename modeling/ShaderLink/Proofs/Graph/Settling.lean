import ShaderLink.Proofs.Graph.Step

/-!
# Deriving the types of chains again

A touch derives the types of chains while it walks, and a chain that gets other types puts the
chains it is a member of out of date. A graph is **settling** as long as those are still to be
derived (`Graph.Settling`). Deriving the types of one chain settles it and may leave the chains it
is a member of pending (`Settling.refresh`); so a walk that comes to the members of a chain before
it comes to the chain (`Graph.Orderly`) leaves nothing pending (`Settling.touch`).

A walk that comes to a chain too early does not come to it again: what it derives for the chain last
is not passed on.
-/

namespace ShaderLink

namespace Graph

/-- A chain with its types derived again, or marked stale if they cannot be. -/
def rederive (g : Graph) (c : Chain) : Chain :=
  match g.deriveTypes c.members with
  | .ok types => c.withTypes types
  | .error _ => { c with stale := true }

/-- The members of a chain; none of anything else. -/
def membersOf (g : Graph) (id : ObjectId) : List ObjectId :=
  match g.find? id with
  | some (.chain c) => c.members
  | _ => []

/-- Whether a walk that passes on a change comes to the members of a chain before it comes to the
chain. -/
def Orderly (g : Graph) (id : ObjectId) : Prop :=
  ∀ x ∈ g.affected id, ∀ y ∈ g.ids, x ∈ g.membersOf y →
    (g.affected id).idxOf x < (g.affected id).idxOf y

instance (g : Graph) (id : ObjectId) : Decidable (g.Orderly id) :=
  inferInstanceAs (Decidable (∀ x ∈ g.affected id, ∀ y ∈ g.ids, _ → _))

variable {g g' : Graph} {id x y : ObjectId} {c : Chain} {moving : Prop}
  {pending : ObjectId → Prop}

/-! ### Deriving types -/

theorem callable_eq_ok_iff {s : Signature} : g.callable x = .ok s ↔ g.signature? x = some s := by
  unfold callable signature? get
  cases g.find? x with
  | none => simp
  | some o => cases ho : o.signature? <;> simp [ho]

theorem mem_ids_of_signature? {s : Signature} (h : g.signature? x = some s) : x ∈ g.ids := by
  obtain ⟨o, ho, -⟩ := Option.bind_eq_some_iff.1 h
  exact mem_ids_of_find? ho

/-- Whether an object can be called. -/
def Callable (g : Graph) (x : ObjectId) : Prop := ∃ s, g.callable x = .ok s

theorem Callable.mem_ids (h : g.Callable x) : x ∈ g.ids := by
  obtain ⟨s, hs⟩ := h
  exact mem_ids_of_signature? (callable_eq_ok_iff.1 hs)

/-- What types can be derived is a matter of the signatures of the first and the last member. -/
theorem toOption_deriveTypes (g : Graph) (members : List ObjectId) :
    (g.deriveTypes members).toOption =
      match members.head?, members.getLast? with
      | some first, some last => (g.signature? first).bind fun s =>
          (g.signature? last).map fun t => (s.arguments, t.result)
      | _, _ => some ([], Glsl.voidType) := by
  have hcallable : ∀ x, g.signature? x = (g.callable x).toOption := by
    intro x
    cases h : g.callable x with
    | ok s => exact callable_eq_ok_iff.1 h
    | error e =>
      cases hs : g.signature? x with
      | none => rfl
      | some s =>
        rw [callable_eq_ok_iff.2 hs] at h
        cases h
  unfold deriveTypes
  cases members.head? with
  | none => rfl
  | some first =>
    cases members.getLast? with
    | none => rfl
    | some last =>
      dsimp only
      rw [hcallable, hcallable]
      cases g.callable first with
      | error e => rfl
      | ok s => cases g.callable last <;> rfl

theorem rederive_eq (g : Graph) (c : Chain) :
    g.rederive c = match (g.deriveTypes c.members).toOption with
      | some types => c.withTypes types
      | none => { c with stale := true } := by
  unfold rederive
  cases g.deriveTypes c.members <;> rfl

theorem members_rederive (g : Graph) (c : Chain) : (g.rederive c).members = c.members := by
  unfold rederive
  cases g.deriveTypes c.members <;> rfl

/-- The types of a chain are the same where its members have the same signatures. -/
theorem rederive_congr (h : ∀ x ∈ c.members, g'.signature? x = g.signature? x) :
    g'.rederive c = g.rederive c := by
  have htypes : (g'.deriveTypes c.members).toOption = (g.deriveTypes c.members).toOption := by
    rw [toOption_deriveTypes, toOption_deriveTypes]
    cases hfirst : c.members.head? with
    | none => rfl
    | some first =>
      cases hlast : c.members.getLast? with
      | none => rfl
      | some last =>
        dsimp only
        rw [h first (List.mem_of_head? hfirst), h last (List.mem_of_getLast? hlast)]
  rw [rederive_eq, rederive_eq, htypes]

/-- Deriving the types once more changes nothing. -/
theorem rederive_rederive (g : Graph) (c : Chain) :
    g.rederive (g.rederive c) = g.rederive c := by
  rw [rederive_eq g (g.rederive c), members_rederive, rederive_eq g c]
  cases (g.deriveTypes c.members).toOption <;> rfl

/-- A chain that was given its types has them. -/
theorem rederive_withTypes {types : List Argument × String}
    (h : g.deriveTypes c.members = .ok types) : g.rederive (c.withTypes types) = c.withTypes types := by
  have hc : g.rederive c = c.withTypes types := by rw [rederive, h]
  rw [← hc, rederive_rederive]

theorem refresh_of_chain (hc : g.find? y = some (.chain c)) :
    (g.refresh y).2 = g.setObject y (.chain (g.rederive c)) := by
  unfold refresh rederive
  rw [getChain_eq_ok_iff.2 hc]
  dsimp only
  cases g.deriveTypes c.members <;> rfl

theorem refresh_of_not_chain (h : ∀ c, g.find? y ≠ some (.chain c)) : (g.refresh y).2 = g := by
  unfold refresh
  cases hc : g.getChain y with
  | error e => rfl
  | ok c => exact absurd (getChain_eq_ok_iff.1 hc) (h c)

/-! ### Members -/

theorem membersOf_of_chain (hc : g.find? y = some (.chain c)) : g.membersOf y = c.members := by
  rw [membersOf, hc]

theorem exists_chain_of_mem (h : x ∈ g.membersOf y) :
    ∃ c, g.find? y = some (.chain c) ∧ x ∈ c.members := by
  unfold membersOf at h
  cases hy : g.find? y with
  | none =>
    rw [hy] at h
    cases h
  | some o =>
    rw [hy] at h
    cases o with
    | chain c => exact ⟨c, rfl, h⟩
    | _ => cases h

/-- Where no chain is new or has other members, no member is new. -/
theorem mem_membersOf_of_chains
    (h : ∀ y c, g'.find? y = some (.chain c) → g.find? y = some (.chain c))
    (hx : x ∈ g'.membersOf y) : x ∈ g.membersOf y := by
  obtain ⟨c, hc, hxc⟩ := exists_chain_of_mem hx
  rwa [membersOf_of_chain (h y c hc)]

theorem membersOf_congr (h : g'.find? y = g.find? y) : g'.membersOf y = g.membersOf y := by
  rw [membersOf, membersOf, h]

/-- Where references are exact, the chains that refer to something are those it is a member of. -/
theorem Exact.mem_membersOf_iff (h : g.Exact) (hc : g.find? y = some (.chain c)) :
    x ∈ g.membersOf y ↔ y ∈ g.referrersOf x := by
  rw [membersOf_of_chain hc, mem_referrersOf_iff, h x y, mentions_of_find? hc, List.count_pos_iff]
  rfl

/-- Retyping chains leaves them their members. -/
theorem Retyping.membersOf_eq {up : ObjectId → Nat} {p : ObjectId → Prop}
    (h : Retyping up p g g') : g'.membersOf = g.membersOf := by
  funext y
  cases hy : g.nodes[y]? with
  | none => exact membersOf_congr (find?_congr ((h.absent y hy).trans hy.symm))
  | some n =>
    obtain ⟨o, r⟩ := n
    obtain ⟨o', ho', hr, -⟩ := h.present y _ hy
    rw [membersOf, membersOf, find?_of_node hy, find?_of_node ho']
    cases hr <;> rfl

theorem membersOf_refresh : (g.refresh x).2.membersOf = g.membersOf :=
  (retyping_refresh g x).membersOf_eq

theorem membersOf_touch : (g.touch x).membersOf = g.membersOf :=
  (retyping_touch g x).membersOf_eq (g := g.advance)

/-! ### Settling -/

/-- **Settling**: chains have the types of their members, except that those of some pending chains
are still to be derived. Where nothing is moving, that will leave the signatures of those chains as
they are. -/
def Settling (g : Graph) (moving : Prop) (pending : ObjectId → Prop) : Prop :=
  ∀ y c, g.find? y = some (.chain c) →
    g.rederive c = c ∨ (pending y ∧ (moving ∨ (g.rederive c).signature = c.signature))

/-- A chain that is not a member of itself has its types once they are derived. -/
theorem rederive_setObject_self (hself : y ∉ c.members) :
    (g.setObject y (.chain (g.rederive c))).rederive (g.rederive c) = g.rederive c := by
  have hcongr : (g.setObject y (.chain (g.rederive c))).rederive (g.rederive c) =
      g.rederive (g.rederive c) := by
    apply rederive_congr
    intro x hx
    rw [members_rederive] at hx
    have hne : y ≠ x := (ne_of_mem_of_not_mem hx hself).symm
    rw [signature?, signature?, find?_setObject_of_ne hne]
  rw [hcongr, rederive_rederive]

/-- What types other chains have is not touched as long as the signature of the chain stays, or the
chain is none of their members. -/
theorem rederive_setObject_of_ne {d : Chain} (hc : g.find? y = some (.chain c))
    (h : (g.rederive c).signature = c.signature ∨ y ∉ d.members) :
    (g.setObject y (.chain (g.rederive c))).rederive d = g.rederive d := by
  apply rederive_congr
  intro x hx
  rw [signature?, signature?]
  by_cases hxy : y = x
  · subst hxy
    have hsame : (g.rederive c).signature = c.signature := h.resolve_right fun hy => hy hx
    rw [find?_setObject_self hc, hc]
    exact congrArg some hsame
  · rw [find?_setObject_of_ne hxy]

/-- A signature that deriving the types changes was pending, and something moves. -/
theorem Settling.moves (h : g.Settling moving pending) (hc : g.find? y = some (.chain c))
    (hne : (g.rederive c).signature ≠ c.signature) : moving := by
  obtain hderived | ⟨-, hmoves | hsame⟩ := h y c hc
  · exact absurd (congrArg Chain.signature hderived) hne
  · exact hmoves
  · exact absurd hsame hne

/-- **Deriving the types of a chain settles it.** If that changes its signature, the chains it is a
member of have to be pending. -/
theorem Settling.refresh (h : g.Settling moving fun z => z = y ∨ pending z)
    (hself : y ∉ g.membersOf y)
    (hmoving : moving → (∃ c, g.find? y = some (.chain c)) → ∀ z, y ∈ g.membersOf z → pending z) :
    (g.refresh y).2.Settling moving pending := by
  by_cases hy : ∃ c, g.find? y = some (.chain c)
  · obtain ⟨c, hc⟩ := hy
    rw [refresh_of_chain hc]
    intro z d hd
    by_cases hz : y = z
    · subst hz
      rw [find?_setObject_self hc] at hd
      obtain rfl := Object.chain.inj (Option.some.inj hd)
      rw [membersOf_of_chain hc] at hself
      exact .inl (rederive_setObject_self hself)
    · rw [find?_setObject_of_ne hz] at hd
      by_cases hstays : (g.rederive c).signature = c.signature ∨ y ∉ d.members
      · rw [rederive_setObject_of_ne hc hstays]
        obtain hderived | ⟨hpending, hmoves⟩ := h z d hd
        · exact .inl hderived
        · exact .inr ⟨hpending.resolve_left (Ne.symm hz), hmoves⟩
      · -- the chain has another signature now, and is a member of `z`
        obtain ⟨hne, hyd⟩ := not_or.1 hstays
        have hmoves : moving := h.moves hc hne
        have hyz : y ∈ g.membersOf z := by
          rw [membersOf_of_chain hd]
          exact not_not.1 hyd
        exact .inr ⟨hmoving hmoves ⟨c, hc⟩ z hyz, .inl hmoves⟩
  · rw [refresh_of_not_chain fun c hc => hy ⟨c, hc⟩]
    intro z d hd
    have hz : z ≠ y := by
      rintro rfl
      exact hy ⟨d, hd⟩
    obtain hderived | ⟨hpending, hmoves⟩ := h z d hd
    · exact .inl hderived
    · exact .inr ⟨hpending.resolve_left hz, hmoves⟩

theorem Settling.mono {pending' : ObjectId → Prop} (h : g.Settling moving pending)
    (hpending : ∀ z, pending z → pending' z) : g.Settling moving pending' := by
  intro z c hz
  obtain hderived | ⟨hp, hmoves⟩ := h z c hz
  · exact .inl hderived
  · exact .inr ⟨hpending z hp, hmoves⟩

/-- Settling is about the objects of a graph, whatever their revisions. -/
theorem Settling.congr (h : g.Settling moving pending) (hg : ∀ x, g'.find? x = g.find? x) :
    g'.Settling moving pending := by
  intro z c hz
  have hsame : g'.rederive c = g.rederive c := by
    apply rederive_congr
    intro x _
    rw [signature?, signature?, hg]
  rw [hg] at hz
  rw [hsame]
  exact h z c hz

/-- The types of some chains are derived, one chain after the other. -/
theorem Settling.refreshAll {l : List ObjectId}
    (h : g.Settling moving fun z => z ∈ l ∨ pending z) (hself : ∀ z, z ∉ g.membersOf z)
    (hmoving : moving → ∀ y, g.ChainAmong l y → ∀ z, y ∈ g.membersOf z → pending z) :
    (l.foldl (fun g source => (g.refresh source).2) g).Settling moving pending := by
  induction l generalizing g with
  | nil => exact h.mono fun z hz => hz.resolve_left List.not_mem_nil
  | cons a l ih =>
    have hfirst := retyping_refresh g a
    have hmembers := hfirst.membersOf_eq
    have hsettling : g.Settling moving fun z => z = a ∨ z ∈ l ∨ pending z := by
      refine h.mono fun z hz => ?_
      rwa [List.mem_cons, or_assoc] at hz
    refine ih (g := (g.refresh a).2) ?_ (hmembers ▸ hself) ?_
    · apply hsettling.refresh (hself a)
      intro hmoves ha z hz
      exact .inr (hmoving hmoves a ⟨List.mem_cons_self, ha⟩ z hz)
    · intro hmoves y hy z hz
      rw [hmembers] at hz
      exact hmoving hmoves y ⟨List.mem_cons_of_mem a hy.1, hfirst.isChain_iff.1 hy.2⟩ z hz

/-- **The walk of a touch settles the chains that its objects are members of.** Where something
moves, every chain has to come after its members. -/
theorem Settling.touchAll {l : List ObjectId}
    (h : g.Settling moving fun z => ∃ x ∈ l, x ∈ g.membersOf z) (hexact : g.Exact)
    (hself : ∀ z, z ∉ g.membersOf z)
    (hmoving : moving → ∀ x rest, (x :: rest) <:+ l → ∀ y, x ∈ g.membersOf y → y ∈ rest) :
    (l.foldl (fun g x => (g.bump x).refreshReferrers x) g).Settling moving fun _ => False := by
  induction l generalizing g with
  | nil =>
    refine h.mono fun z hz => ?_
    obtain ⟨x, hx, -⟩ := hz
    exact List.not_mem_nil hx
  | cons a l ih =>
    have hround := retyping_round g a
    have hmembers := hround.membersOf_eq
    have hbump : (g.bump a).membersOf = g.membersOf := (retyping_bump g a).membersOf_eq
    -- the chains that the first object is a member of are among those that refer to it
    have hsettling : (g.bump a).Settling moving fun z =>
        z ∈ g.referrersOf a ∨ ∃ x ∈ l, x ∈ g.membersOf z := by
      refine (h.congr fun x => find?_bump).mono fun z hz => ?_
      obtain ⟨x, hx, hxz⟩ := hz
      obtain rfl | hx := List.mem_cons.1 hx
      · obtain ⟨c, hc, -⟩ := exists_chain_of_mem hxz
        exact .inl ((hexact.mem_membersOf_iff hc).1 hxz)
      · exact .inr ⟨x, hx, hxz⟩
    refine ih (g := (g.bump a).refreshReferrers a) ?_ (hround.exact hexact) (hmembers ▸ hself) ?_
    · rw [hmembers]
      refine hsettling.refreshAll (hbump ▸ hself) ?_
      -- a chain that refers to the first object is still to come
      rintro hmoves y ⟨hy, c, hc⟩ z hz
      rw [find?_bump] at hc
      rw [hbump] at hz
      have hay : a ∈ g.membersOf y := (hexact.mem_membersOf_iff hc).2 hy
      exact ⟨y, hmoving hmoves a l (List.suffix_refl _) y hay, hz⟩
    · rw [hmembers]
      intro hmoves x rest hrest
      exact hmoving hmoves x rest (hrest.trans (List.suffix_cons a l))

/-! ### Walks in order -/

section

variable {up : ObjectId → Nat} {p : ObjectId → Prop}

theorem Retyping.ids_eq (h : Retyping up p g g') : g'.ids = g.ids :=
  ids_congr fun x => by
    rw [mem_ids_iff, mem_ids_iff]
    cases hx : g.nodes[x]? with
    | none => rw [find?_eq_none_iff.2 hx, find?_eq_none_iff.2 (h.absent x hx)]
    | some n =>
      obtain ⟨o', ho', -⟩ := h.present x n hx
      rw [find?_of_node hx, find?_of_node ho']
      exact ⟨fun _ => ⟨_, rfl⟩, fun _ => ⟨_, rfl⟩⟩

theorem Retyping.carries_eq (h : Retyping up p g g') (x : ObjectId) :
    g'.carries x = g.carries x := by
  funext y
  cases hy : g.nodes[y]? with
  | none => rw [carries, carries, find?_eq_none_iff.2 hy, find?_eq_none_iff.2 (h.absent y hy)]
  | some n =>
    obtain ⟨o, r⟩ := n
    obtain ⟨o', ho', hr, -⟩ := h.present y _ hy
    rw [carries, carries, find?_of_node hy, find?_of_node ho']
    cases hr <;> rfl

theorem Retyping.carriers_eq (h : Retyping up p g g') : g'.carriers = g.carriers := by
  funext x
  rw [carriers, carriers, h.carries_eq, referrersOf, referrersOf, h.referrers]

/-- Retyping chains leaves every walk as it is. -/
theorem Retyping.affected_eq (h : Retyping up p g g') : g'.affected = g.affected := by
  funext id
  rw [affected, affected, h.ids_eq, h.carriers_eq]

theorem Retyping.orderly_iff (h : Retyping up p g g') : g'.Orderly id ↔ g.Orderly id := by
  rw [Orderly, Orderly, h.affected_eq, h.ids_eq, h.membersOf_eq]

end

theorem orderly_touch_iff : (g.touch id).Orderly id ↔ g.Orderly id :=
  (retyping_touch g id).orderly_iff (g := g.advance)

/-- A chain passes on the changes of its members, so the walk comes to it as well. -/
theorem Exact.mem_affected (hexact : g.Exact) (hx : x ∈ g.affected id) (hxy : x ∈ g.membersOf y) :
    y ∈ g.affected id := by
  obtain ⟨c, hc, -⟩ := exists_chain_of_mem hxy
  have hrefers : y ∈ g.referrersOf x := (hexact.mem_membersOf_iff hc).1 hxy
  exact affected_carrier hx (mem_carriers_iff.2 ⟨hrefers, carries_of_chain hc⟩)

/-- **Where nesting is not shared, walks are in order**: no chain has two of the objects that a change
shows in as members, and the chain that the walk starts from has none of them. -/
theorem orderly_of_unshared (hexact : g.Exact) (hroot : ∀ x ∈ g.membersOf id, x ∉ g.affected id)
    (hunshared : ∀ y, ∀ x ∈ g.membersOf y, ∀ x' ∈ g.membersOf y, x ∈ g.affected id →
      x' ∈ g.affected id → x = x') : g.Orderly id := by
  intro x hx y _ hxy
  obtain ⟨c, hc, -⟩ := exists_chain_of_mem hxy
  have hroot' : y ∉ [id] := by
    intro hy
    obtain rfl := List.mem_singleton.1 hy
    exact hroot x hxy hx
  -- the walk comes to `y` from one of its members, and there is but one it can come from
  obtain ⟨b, hb, hlt⟩ := Traversal.exists_idxOf_preorder_lt (hexact.mem_affected hx hxy) hroot'
  have hrefers : y ∈ g.referrersOf b := (mem_carriers_iff.1 (List.mem_reverse.1 hb)).1
  have hby : b ∈ g.membersOf y := (hexact.mem_membersOf_iff hc).2 hrefers
  have hbefore : b ∈ g.affected id :=
    List.idxOf_lt_length_iff.1 (Nat.lt_of_lt_of_le hlt List.idxOf_le_length)
  rw [hunshared y x hxy b hby hx hbefore]
  exact hlt

/-- What comes later in a list comes after whatever is earlier. -/
theorem mem_of_suffix_of_idxOf_lt {l rest : List ObjectId} (hl : l.Nodup)
    (hsuffix : (x :: rest) <:+ l) (hy : y ∈ l) (hlt : l.idxOf x < l.idxOf y) : y ∈ rest := by
  obtain ⟨before, rfl⟩ := hsuffix
  have hx : x ∉ before := fun hx => List.disjoint_of_nodup_append hl hx List.mem_cons_self
  rw [List.idxOf_append_of_notMem hx, List.idxOf_cons_self, Nat.add_zero] at hlt
  obtain hy | hy := List.mem_append.1 hy
  · rw [List.idxOf_append_of_mem hy] at hlt
    exact absurd (List.idxOf_lt_length_of_mem hy) (Nat.lt_asymm hlt)
  · obtain rfl | hy := List.mem_cons.1 hy
    · rw [List.idxOf_append_of_notMem hx, List.idxOf_cons_self] at hlt
      exact absurd hlt (Nat.lt_irrefl _)
    · exact hy

/-- **A touch** settles the chains that an object is a member of. -/
theorem Settling.touch (h : g.Settling moving fun z => id ∈ g.membersOf z) (hexact : g.Exact)
    (hself : ∀ z, z ∉ g.membersOf z) (horder : moving → g.Orderly id) :
    (g.touch id).Settling moving fun _ => False := by
  have hsettling : g.Settling moving fun z => ∃ x ∈ g.affected id, x ∈ g.membersOf z :=
    h.mono fun z hz => ⟨id, self_mem_affected, hz⟩
  refine Settling.touchAll (g := g.advance) hsettling hexact hself ?_
  intro hmoves x rest hsuffix y hxy
  have hx : x ∈ g.affected id := hsuffix.subset List.mem_cons_self
  have hy : y ∈ g.affected id := hexact.mem_affected hx hxy
  obtain ⟨c, hc, -⟩ := exists_chain_of_mem hxy
  have hlt : (g.affected id).idxOf x < (g.affected id).idxOf y :=
    horder hmoves x hx y (mem_ids_of_find? hc) hxy
  exact mem_of_suffix_of_idxOf_lt Traversal.nodup_preorder hsuffix hy hlt

end Graph

end ShaderLink
