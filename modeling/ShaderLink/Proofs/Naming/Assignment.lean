import ShaderLink.Naming.Assignment
import ShaderLink.Proofs.Closure.Collect
import ShaderLink.Proofs.Naming.Namespace

/-!
# What the rounds of naming do

Each round goes through objects and has them claim names. The objects it is done with are **named**:
each has a name that it has claimed and that suits it (`Assignment.Named`). A name has one claimant,
so the names of different objects differ. A round that claims for one object more keeps the others
named (`Named.claim`), and only the first round can fail: the later ones claim free names.

What a round leaves alone besides is `Assignment.Follows`.
-/

namespace ShaderLink

namespace Assignment

/-- The name that an object of a graph must have, if there is one. -/
def fixedOf (g : Graph) (required : Names) (x : ObjectId) : Option String :=
  (g.find? x).bind (fixedName? required x)

/-- A name under which an object may be emitted: its fixed name, or one that no code takes, and in
either case no word of the language that is kept free. -/
structure Suits (g : Graph) (required : Names) (ns : Namespace) (x : ObjectId) (name : String) :
    Prop where
  keyword : ns.isKeyword name = false
  fixed : ∀ n, fixedOf g required x = some n → name = n
  reserved : fixedOf g required x = none → name ∉ ns.reserved

/-- Objects are named if each has claimed a name that suits it. -/
def Named (g : Graph) (required : Names) (a : Assignment) (done : ObjectId → Prop) : Prop :=
  ∀ x, done x → ∃ name, a.names[x]? = some name ∧ a.space.claimed[name]? = some x ∧
    Suits g required a.space x name

/-- What naming leaves alone: the names taken by code and language, and the names of objects that
are not renamed. -/
structure Follows (a a' : Assignment) : Prop where
  reserved : a'.space.reserved = a.space.reserved
  keywords : a'.space.keywords = a.space.keywords
  renamed : ∀ x, x ∈ a.renamed → x ∈ a'.renamed
  kept : ∀ x : ObjectId, x ∉ a'.renamed → a'.names[x]? = a.names[x]?

variable {g : Graph} {required : Names} {a a' a'' : Assignment} {x y : ObjectId} {name : String}
  {done : ObjectId → Prop} {l free unnamed : List ObjectId}

theorem Follows.refl (a : Assignment) : Follows a a := ⟨rfl, rfl, fun _ h => h, fun _ _ => rfl⟩

theorem Follows.trans (h : Follows a a') (h' : Follows a' a'') : Follows a a'' where
  reserved := h'.reserved.trans h.reserved
  keywords := h'.keywords.trans h.keywords
  renamed := fun x hx => h'.renamed x (h.renamed x hx)
  kept := fun x hx => (h'.kept x hx).trans (h.kept x (mt (h'.renamed x) hx))

theorem Suits.congr {ns ns' : Namespace} (h : Suits g required ns x name)
    (hreserved : ns'.reserved = ns.reserved) (hkeywords : ns'.keywords = ns.keywords) :
    Suits g required ns' x name where
  keyword := by
    have := h.keyword
    rwa [Namespace.isKeyword, ← hkeywords] at this
  fixed := h.fixed
  reserved := fun hn => hreserved ▸ h.reserved hn

theorem Named.mono {done' : ObjectId → Prop} (h : Named g required a done)
    (hdone : ∀ x, done' x → done x) : Named g required a done' :=
  fun x hx => h x (hdone x hx)

/-- **Different objects have different names.** -/
theorem Named.injective (h : Named g required a done) (hx : done x) (hy : done y)
    (hname : a.names[x]? = a.names[y]?) : x = y := by
  -- both have claimed the one name, which has one claimant
  obtain ⟨n, hn, hnx, -⟩ := h x hx
  obtain ⟨m, hm, hmy, -⟩ := h y hy
  rw [hn, hm] at hname
  obtain rfl := Option.some.inj hname
  rw [hnx] at hmy
  exact Option.some.inj hmy

/-! ### Claiming one name -/

/-- An object claims a name and has it from then on. It is renamed unless it had the name before. -/
structure Claims (a a' : Assignment) (x : ObjectId) (name : String) : Prop where
  claim : a.space.claim name x = .ok a'.space
  names : ∀ y : ObjectId, a'.names[y]? = if x = y then some name else a.names[y]?
  renamed : ∀ y ∈ a.renamed, y ∈ a'.renamed
  kept : a.names[x]? = some name ∨ x ∈ a'.renamed

theorem claims_keep {space : Namespace} (hclaim : a.space.claim name x = .ok space)
    (hx : a.names[x]? = some name) : Claims a { a with space } x name where
  claim := hclaim
  names := fun y => by
    split
    · next hxy => exact hxy ▸ hx
    · rfl
  renamed := fun _ hy => hy
  kept := .inl hx

theorem claims_rename {space : Namespace} (hclaim : a.space.claim name x = .ok space) :
    Claims a (({ a with space } : Assignment).rename x name) x name where
  claim := hclaim
  names := fun y => by simp [rename, Std.ExtTreeMap.getElem?_insert]
  renamed := fun y hy => List.mem_append_left _ hy
  kept := .inr (List.mem_append_right _ (List.mem_singleton_self x))

theorem Claims.follows (h : Claims a a' x name) : Follows a a' := by
  obtain ⟨-, hspace⟩ := Namespace.claim_eq_ok_iff.1 h.claim
  refine { reserved := by rw [hspace], keywords := by rw [hspace], renamed := h.renamed,
           kept := fun y hy => ?_ }
  rw [h.names]
  split
  · next hxy =>
    subst hxy
    exact (h.kept.resolve_right hy).symm
  · rfl

/-- **One object more is named** when it claims a name that suits it. -/
theorem Named.claim (h : Named g required a done) (hclaims : Claims a a' x name)
    (hsuits : Suits g required a.space x name) :
    Named g required a' (fun y => y = x ∨ done y) := by
  have hfollows := hclaims.follows
  obtain ⟨hfree, hspace⟩ := Namespace.claim_eq_ok_iff.1 hclaims.claim
  intro y hy
  by_cases hxy : x = y
  · subst hxy
    refine ⟨name, ?_, ?_, hsuits.congr hfollows.reserved hfollows.keywords⟩
    · rw [hclaims.names, if_pos rfl]
    · simp [hspace]
  · obtain ⟨n, hn, hny, hs⟩ := h y (hy.resolve_left (Ne.symm hxy))
    refine ⟨n, ?_, ?_, hs.congr hfollows.reserved hfollows.keywords⟩
    · rw [hclaims.names, if_neg hxy, hn]
    · -- the name of another object is not the one just claimed
      have hne : name ≠ n := by
        rintro rfl
        rw [hny] at hfree
        obtain hfree | hfree := hfree
        · cases hfree
        · exact hxy (Option.some.inj hfree).symm
      simpa [hspace, Std.ExtTreeMap.getElem?_insert, hne] using hny

/-- A name that is free suits an object that may be called anything. -/
theorem suits_of_isFree (hfree : a.space.isFree name = true) (hx : fixedOf g required x = none) :
    Suits g required a.space x name := by
  obtain ⟨-, hreserved, hkeyword⟩ := Namespace.isFree_iff.1 hfree
  exact ⟨hkeyword, fun n hn => absurd (hx.symm.trans hn) nofun, fun _ => hreserved⟩

/-- A free name can be claimed. -/
theorem claim_of_isFree (hfree : a.space.isFree name = true) :
    ∃ space, a.space.claim name x = .ok space :=
  ⟨_, Namespace.claim_eq_ok_iff.2 ⟨.inl (Namespace.isFree_iff.1 hfree).1, rfl⟩⟩

/-! ### The first round -/

theorem fixedOf_of_find? {o : Object} (ho : g.find? x = some o) :
    fixedOf g required x = fixedName? required x o := by
  simp [fixedOf, ho]

/-- What the first round does with a claimed name. -/
def give (a : Assignment) (space : Namespace) (x : ObjectId) (name : String) : Assignment :=
  if a.names[x]? = some name then { a with space }
  else ({ a with space } : Assignment).rename x name

theorem claims_give {space : Namespace} (hclaim : a.space.claim name x = .ok space) :
    Claims a (a.give space x name) x name := by
  unfold give
  split
  · exact claims_keep hclaim (by assumption)
  · exact claims_rename hclaim

/-- An object is passed over if it has no fixed name, and claims the one it has otherwise. -/
theorem fix_cons {o : Object} (ho : g.find? x = some o) :
    fix g required a (x :: l) = match fixedOf g required x with
      | none => (fun r => (r.1, x :: r.2)) <$> fix g required a l
      | some name =>
        if a.space.isKeyword name then .error (.reservedName name)
        else a.space.claim name x >>= fun space => fix g required (a.give space x name) l := by
  rw [fixedOf_of_find? ho, fix, Graph.get_eq_ok_iff.2 ho, Except.ok_bind]
  cases fixedName? required x o with
  | none => cases fix g required a l <;> rfl
  | some name =>
    by_cases hk : a.space.isKeyword name = true
    · simp [hk]
    · cases hclaim : a.space.claim name x with
      | error e => simp [hk, hclaim]
      | ok space => simp [hk, hclaim, give]

/-- **The first round** names the objects with a fixed name and answers with the others. -/
theorem fix_eq_ok (h : fix g required a l = .ok (a', free))
    (hpresent : ∀ x ∈ l, ∃ o, g.find? x = some o) (hnamed : Named g required a done) :
    Follows a a' ∧ free = l.filter (fun x => (fixedOf g required x).isNone) ∧
      Named g required a' (fun x => done x ∨ (x ∈ l ∧ fixedOf g required x ≠ none)) := by
  -- along the list, the objects that are done grow by those with a fixed name
  induction l generalizing a free done with
  | nil =>
    cases h
    exact ⟨.refl _, rfl, hnamed.mono (by simp)⟩
  | cons x l ih =>
    obtain ⟨o, ho⟩ := hpresent x List.mem_cons_self
    have hpresent := fun y hy => hpresent y (List.mem_cons_of_mem x hy)
    rw [fix_cons ho] at h
    cases hfixed : fixedOf g required x with
    | none =>
      rw [hfixed] at h
      obtain ⟨r, hr, heq⟩ := Except.map_eq_ok_iff.1 h
      cases heq
      obtain ⟨hfollows, hfree, hnamed'⟩ := ih hr hpresent hnamed
      refine ⟨hfollows, by simp [hfixed, hfree], hnamed'.mono fun y hy => ?_⟩
      obtain hy | ⟨hy, hne⟩ := hy
      · exact .inl hy
      · obtain rfl | hy := List.mem_cons.1 hy
        · exact absurd hfixed hne
        · exact .inr ⟨hy, hne⟩
    | some name =>
      rw [hfixed] at h
      by_cases hk : a.space.isKeyword name = true
      · simp [hk] at h
      · simp only [hk, if_false, Bool.false_eq_true] at h
        obtain ⟨space, hclaim, h⟩ := Except.bind_eq_ok_iff.1 h
        -- a fixed name that is no word of the language suits its object
        have hsuits : Suits g required a.space x name :=
          ⟨by simpa using hk, fun n hn => Option.some.inj (hfixed.symm.trans hn),
            fun hn => absurd (hfixed.symm.trans hn) nofun⟩
        have hclaimed := hnamed.claim (claims_give hclaim) hsuits
        obtain ⟨hfollows, hfree, hnamed'⟩ := ih h hpresent hclaimed
        refine ⟨(claims_give hclaim).follows.trans hfollows, by simp [hfixed, hfree],
          hnamed'.mono fun y hy => ?_⟩
        obtain hy | ⟨hy, hne⟩ := hy
        · exact .inl (.inr hy)
        · obtain rfl | hy := List.mem_cons.1 hy
          · exact .inl (.inl rfl)
          · exact .inr ⟨hy, hne⟩

/-- **The first round fails** only over two objects with one fixed name, or over a fixed name that
is a word of the language. -/
theorem fix_eq_error {e : LinkError} {objects : List ObjectId} (h : fix g required a l = .error e)
    (hpresent : ∀ x ∈ objects, ∃ o, g.find? x = some o) (hsub : ∀ x ∈ l, x ∈ objects)
    (hclaimed : ∀ n x, a.space.claimed[n]? = some x → x ∈ objects ∧ fixedOf g required x = some n) :
    (∃ x ∈ objects, ∃ y ∈ objects, ∃ n, x ≠ y ∧ fixedOf g required x = some n ∧
      fixedOf g required y = some n) ∨
    ∃ x ∈ objects, ∃ n, fixedOf g required x = some n ∧ a.space.isKeyword n = true := by
  induction l generalizing a e with
  | nil => cases h
  | cons x l ih =>
    have hx := hsub x List.mem_cons_self
    have hsub := fun y hy => hsub y (List.mem_cons_of_mem x hy)
    obtain ⟨o, ho⟩ := hpresent x hx
    rw [fix_cons ho] at h
    cases hfixed : fixedOf g required x with
    | none =>
      -- an object that is passed over is not what the round fails over
      rw [hfixed] at h
      cases hr : fix g required a l with
      | ok r => rw [hr] at h; cases h
      | error e => exact ih hr hsub hclaimed
    | some name =>
      rw [hfixed] at h
      by_cases hk : a.space.isKeyword name = true
      · exact .inr ⟨x, hx, name, hfixed, hk⟩
      · simp only [hk, if_false, Bool.false_eq_true] at h
        cases hclaim : a.space.claim name x with
        | error e =>
          -- somebody else has claimed the name, which is therefore its fixed name
          obtain ⟨y, hc, hxy⟩ := Namespace.claim_eq_error hclaim
          obtain ⟨hy, hyn⟩ := hclaimed name y hc
          exact .inl ⟨x, hx, y, hy, name, Ne.symm hxy, hfixed, hyn⟩
        | ok space =>
          rw [hclaim] at h
          have hkeywords := (claims_give hclaim).follows.keywords
          obtain ⟨-, hspace⟩ := Namespace.claim_eq_ok_iff.1 (claims_give hclaim).claim
          refine (ih h hsub fun n y hy => ?_).imp_right ?_
          · -- still only fixed names are claimed
            rw [hspace, Std.ExtTreeMap.getElem?_insert] at hy
            split at hy
            · next hn =>
              obtain rfl := Option.some.inj hy
              obtain rfl := Std.LawfulEqOrd.eq_of_compare hn
              exact ⟨hx, hfixed⟩
            · exact hclaimed n y hy
          · rintro ⟨y, hy, n, hn, hkn⟩
            refine ⟨y, hy, n, hn, ?_⟩
            rw [Namespace.isKeyword, hkeywords] at hkn
            exact hkn

/-! ### The later rounds -/

/-- **The second round** never fails and names the objects that keep their name. -/
theorem exists_keep (hanonymous : ∀ x ∈ l, fixedOf g required x = none)
    (hnamed : Named g required a done) :
    ∃ a' unnamed, keep a l = .ok (a', unnamed) ∧ Follows a a' ∧ (∀ x ∈ unnamed, x ∈ l) ∧
      Named g required a' (fun x => done x ∨ (x ∈ l ∧ x ∉ unnamed)) := by
  induction l generalizing a done with
  | nil => exact ⟨a, [], rfl, .refl a, nofun, hnamed.mono (by simp)⟩
  | cons x l ih =>
    have hx := hanonymous x List.mem_cons_self
    have hanonymous := fun y hy => hanonymous y (List.mem_cons_of_mem x hy)
    rw [keep]
    cases hcached : a.names[x]?.filter a.space.isFree with
    | some name =>
      -- a name that is still free is claimed, and suits because it is free
      obtain ⟨hname, hfree⟩ := Option.filter_eq_some_iff.1 hcached
      obtain ⟨space, hclaim⟩ := claim_of_isFree (x := x) hfree
      have hclaims := claims_keep hclaim hname
      obtain ⟨a', unnamed, hkeep, hfollows, hsub, hnamed'⟩ :=
        ih hanonymous (hnamed.claim hclaims (suits_of_isFree hfree hx))
      refine ⟨a', unnamed, by simpa [hclaim] using hkeep, hclaims.follows.trans hfollows,
        fun y hy => List.mem_cons_of_mem x (hsub y hy), hnamed'.mono fun y hy => ?_⟩
      obtain hy | ⟨hy, hne⟩ := hy
      · exact .inl (.inr hy)
      · obtain rfl | hy := List.mem_cons.1 hy
        · exact .inl (.inl rfl)
        · exact .inr ⟨hy, hne⟩
    | none =>
      obtain ⟨a', unnamed, hkeep, hfollows, hsub, hnamed'⟩ := ih hanonymous hnamed
      refine ⟨a', x :: unnamed, by simp [hkeep], hfollows,
        fun y hy => List.mem_cons.2 ((List.mem_cons.1 hy).imp_right (hsub y)),
        hnamed'.mono fun y hy => hy.imp_right fun ⟨hy, hne⟩ => ?_⟩
      rw [List.mem_cons, not_or] at hne
      exact ⟨(List.mem_cons.1 hy).resolve_left hne.1, hne.2⟩

/-- **The third round** never fails and names all that is left. -/
theorem exists_freshen (style : NamingStyle) (hpresent : ∀ x ∈ l, ∃ o, g.find? x = some o)
    (hanonymous : ∀ x ∈ l, fixedOf g required x = none) (hnamed : Named g required a done) :
    ∃ a', freshen g style a l = .ok a' ∧ Follows a a' ∧
      Named g required a' (fun x => done x ∨ x ∈ l) := by
  induction l generalizing a done with
  | nil => exact ⟨a, rfl, .refl a, hnamed.mono (by simp)⟩
  | cons x l ih =>
    obtain ⟨o, ho⟩ := hpresent x List.mem_cons_self
    -- what is suggested is free, and a free name suits an object without a fixed one
    have hfree := a.space.isFree_suggest style (o.name?.getD "") x
    obtain ⟨space, hclaim⟩ := claim_of_isFree (x := x) hfree
    have hclaims := claims_rename hclaim
    obtain ⟨a', hfreshen, hfollows, hnamed'⟩ :=
      ih (fun y hy => hpresent y (List.mem_cons_of_mem x hy))
        (fun y hy => hanonymous y (List.mem_cons_of_mem x hy))
        (hnamed.claim hclaims (suits_of_isFree hfree (hanonymous x List.mem_cons_self)))
    refine ⟨a', ?_, hclaims.follows.trans hfollows, hnamed'.mono fun y hy => ?_⟩
    · simpa [freshen, Graph.get_eq_ok_iff.2 ho, hclaim] using hfreshen
    · rw [List.mem_cons] at hy
      tauto

/-! ### All rounds -/

/-- The assignment that naming starts from. -/
def start (g : Graph) (keywords : Bool) (names : Names) (c : Closure) : Assignment :=
  { space := { claimed := ∅, reserved := c.reserved ++ staticNames g c.objects, keywords }
    names, renamed := [] }

/-- **Naming fails** exactly over two objects with one fixed name, or over a fixed name that is a
word of the language. **Otherwise** every object has a name of its own that suits it. -/
theorem ofClosure_cases {stages : Stages StageMain} {c : Closure} (hc : c.Collected g stages)
    (style : NamingStyle) (keywords : Bool) (names : Names) :
    ((∃ x ∈ c.objects, ∃ y ∈ c.objects, ∃ n, x ≠ y ∧ fixedOf g c.required x = some n ∧
        fixedOf g c.required y = some n) ∨
      ∃ x ∈ c.objects, ∃ n, fixedOf g c.required x = some n ∧
        (start g keywords names c).space.isKeyword n = true) ∧
      (∃ e, ofClosure g style keywords names c = .error e) ∨
    ∃ a, ofClosure g style keywords names c = .ok a ∧ Follows (start g keywords names c) a ∧
      Named g c.required a (· ∈ c.objects) := by
  have hpresent : ∀ x ∈ c.objects, ∃ o, g.find? x = some o := fun x hx =>
    hc.present x ((hc.objects x).1 hx).1
  change (_ ∧ ∃ e, (fix g c.required (start g keywords names c) c.objects >>= _) = _) ∨
    ∃ a, (fix g c.required (start g keywords names c) c.objects >>= _) = _ ∧ _
  cases hfix : fix g c.required (start g keywords names c) c.objects with
  | error e =>
    exact .inl ⟨fix_eq_error hfix hpresent (fun _ h => h) (by simp [start]), e, rfl⟩
  | ok r =>
    obtain ⟨a₁, free⟩ := r
    have hnone : Named g c.required (start g keywords names c) fun _ => False := nofun
    obtain ⟨hfollows₁, rfl, hnamed₁⟩ := fix_eq_ok hfix hpresent hnone
    -- the later rounds only see objects without a fixed name
    have hanonymous : ∀ x ∈ c.objects.filter (fun x => (fixedOf g c.required x).isNone),
        fixedOf g c.required x = none := fun x hx => by simpa using (List.mem_filter.1 hx).2
    obtain ⟨a₂, unnamed, hkeep, hfollows₂, hsub, hnamed₂⟩ := exists_keep hanonymous hnamed₁
    obtain ⟨a₃, hfreshen, hfollows₃, hnamed₃⟩ := exists_freshen style
      (fun x hx => hpresent x (List.mem_filter.1 (hsub x hx)).1)
      (fun x hx => hanonymous x (hsub x hx)) hnamed₂
    refine .inr ⟨a₃, by simp [hkeep, hfreshen], (hfollows₁.trans hfollows₂).trans hfollows₃,
      hnamed₃.mono fun x hx => ?_⟩
    -- each object is named in one of the three rounds
    cases hfixed : fixedOf g c.required x with
    | some n => exact .inl (.inl (.inr ⟨hx, by simp⟩))
    | none =>
      have hfree : x ∈ c.objects.filter (fun x => (fixedOf g c.required x).isNone) :=
        List.mem_filter.2 ⟨hx, by simp [hfixed]⟩
      by_cases hu : x ∈ unnamed
      · exact .inr hu
      · exact .inl (.inr ⟨hfree, hu⟩)

/-- What naming answers with names all objects. -/
theorem ofClosure_eq_ok {stages : Stages StageMain} {c : Closure} (hc : c.Collected g stages)
    {style : NamingStyle} {keywords : Bool} {names : Names}
    (h : ofClosure g style keywords names c = .ok a) :
    Follows (start g keywords names c) a ∧ Named g c.required a (· ∈ c.objects) := by
  obtain ⟨-, e, he⟩ | ⟨a', ha', hfollows, hnamed⟩ := ofClosure_cases hc style keywords names
  · rw [h] at he
    cases he
  · rw [h] at ha'
    obtain rfl := Except.ok.inj ha'
    exact ⟨hfollows, hnamed⟩

end Assignment

end ShaderLink
