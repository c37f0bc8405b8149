import ShaderLink.Naming.Assignment
import ShaderLink.Proofs.Renumber.Closure

/-!
# Naming under other identifiers

The objects of a mirror get the names that they get in the graph itself (`Graph.Mirrors.ofClosure`).
Names are given in the order of the closure, and a pretty name is found by looking at the names that
are taken, not at who has taken them. A fast name contains the identifier, so it stays the same only
if the identifiers do.
-/

namespace ShaderLink

variable {f : ObjectId → ObjectId}

/-- Whether a style gives the same names under other identifiers. -/
def NamingStyle.Ignores (style : NamingStyle) (f : ObjectId → ObjectId) : Prop :=
  style = .pretty ∨ f = id

namespace Namespace

/-- The same names taken, by objects with other identifiers. -/
def renumber (f : ObjectId → ObjectId) (ns : Namespace) : Namespace :=
  { ns with claimed := ns.claimed.map fun _ x => f x }

variable {ns : Namespace}

theorem isFree_renumber : (ns.renumber f).isFree = ns.isFree := by
  funext name
  have hclaimed : (ns.renumber f).claimed.contains name = ns.claimed.contains name :=
    Std.ExtTreeMap.contains_map
  unfold isFree
  rw [hclaimed]
  rfl

theorem firstNumbered_renumber (base : String) :
    (ns.renumber f).firstNumbered base = ns.firstNumbered base := by
  have hsize : (ns.renumber f).size = ns.size := by
    unfold size
    rw [show (ns.renumber f).claimed.size = ns.claimed.size from Std.ExtTreeMap.size_map]
    rfl
  unfold firstNumbered
  rw [hsize, isFree_renumber]

theorem suggest_renumber {style : NamingStyle} (hstyle : style.Ignores f) (base : String)
    (x : ObjectId) : (ns.renumber f).suggest style base (f x) = ns.suggest style base x := by
  unfold suggest
  simp only [isFree_renumber, firstNumbered_renumber]
  obtain rfl | rfl := hstyle <;> rfl

theorem claim_renumber (hf : Function.Injective f) (name : String) (x : ObjectId) :
    Corresponds f (fun ns ns' => ns' = ns.renumber f) (ns.claim name x)
      ((ns.renumber f).claim name (f x)) := by
  have hinsert : (ns.renumber f).claimed.insert name (f x) =
      (ns.claimed.insert name x).map fun _ y => f y := by
    refine Std.ExtTreeMap.ext_getElem? fun n => ?_
    simp only [renumber, Std.ExtTreeMap.getElem?_insert, Std.ExtTreeMap.getElem?_map]
    split <;> rfl
  have hclaimed : (ns.renumber f).claimed[name]? = ns.claimed[name]?.map f :=
    Std.ExtTreeMap.getElem?_map
  have hanswer : { ns.renumber f with claimed := (ns.renumber f).claimed.insert name (f x) } =
      ({ ns with claimed := ns.claimed.insert name x } : Namespace).renumber f := by
    rw [hinsert]
    rfl
  unfold claim
  rw [hclaimed]
  cases ns.claimed[name]? with
  | none => exact .ok hanswer
  | some other =>
    simp only [Option.map_some, hf.eq_iff]
    split
    · exact .ok hanswer
    · exact .error rfl

end Namespace

/-- The same names for objects with other identifiers. -/
structure Assignment.Renumbered (f : ObjectId → ObjectId) (a a' : Assignment) : Prop where
  space : a'.space = a.space.renumber f
  names : ∀ x : ObjectId, a'.names[f x]? = a.names[x]?
  renamed : a'.renamed = a.renamed.map f

namespace Assignment

variable {a a' : Assignment} {required required' : Names}

theorem Renumbered.withSpace (h : a.Renumbered f a') (ns : Namespace) :
    Renumbered f { a with space := ns } { a' with space := ns.renumber f } :=
  { h with space := rfl }

theorem Renumbered.rename (h : a.Renumbered f a') (hf : Function.Injective f) (x : ObjectId)
    (name : String) : (a.rename x name).Renumbered f (a'.rename (f x) name) where
  space := h.space
  names := fun y => by
    simp only [Assignment.rename, Std.ExtTreeMap.getElem?_insert, h.names y]
    simp [hf.eq_iff]
  renamed := by
    simp [Assignment.rename, h.renamed]

theorem fixedName?_renumber (hrequired : ∀ x : ObjectId, required'[f x]? = required[x]?)
    (x : ObjectId) (o : Object) :
    fixedName? required' (f x) (o.renumber f) = fixedName? required x o := by
  unfold fixedName?
  rw [hrequired, o.anonymous_renumber, o.name?_renumber]

/-- Names so far, and the objects among some that are left without. -/
structure RenumberedWith (f : ObjectId → ObjectId) (ids : List ObjectId)
    (r r' : Assignment × List ObjectId) : Prop where
  names : r.1.Renumbered f r'.1
  rest : r'.2 = r.2.map f
  sub : ∀ x ∈ r.2, x ∈ ids

variable {ids : List ObjectId} {r r' : Assignment × List ObjectId} {x : ObjectId}

/-- An object that is passed over is left without a name. -/
theorem RenumberedWith.cons (h : RenumberedWith f ids r r') :
    RenumberedWith f (x :: ids) (r.1, x :: r.2) (r'.1, f x :: r'.2) where
  names := h.names
  rest := by rw [h.rest]; rfl
  sub := by
    intro y hy
    obtain rfl | hy := List.mem_cons.1 hy
    · exact List.mem_cons_self
    · exact List.mem_cons_of_mem _ (h.sub y hy)

theorem RenumberedWith.mono (h : RenumberedWith f ids r r') : RenumberedWith f (x :: ids) r r' :=
  { h with sub := fun y hy => List.mem_cons_of_mem x (h.sub y hy) }

theorem keep_renumber (hf : Function.Injective f) (h : a.Renumbered f a') (ids : List ObjectId) :
    Corresponds f (RenumberedWith f ids) (keep a ids) (keep a' (ids.map f)) := by
  induction ids generalizing a a' with
  | nil => exact .ok ⟨h, rfl, nofun⟩
  | cons x rest ih =>
    have hkept : a'.names[f x]?.filter a'.space.isFree = a.names[x]?.filter a.space.isFree := by
      rw [h.names, h.space, Namespace.isFree_renumber]
    rw [List.map_cons, keep, keep, hkept]
    cases a.names[x]?.filter a.space.isFree with
    | some name =>
      dsimp only
      rw [h.space]
      refine (Namespace.claim_renumber hf name x).bind ?_
      rintro ns _ rfl -
      exact (ih (h.withSpace ns)).mono fun _ _ hrest => hrest.mono
    | none => exact (ih h).bind fun _ _ hrest _ => .ok hrest.cons

end Assignment

namespace Graph.Mirrors

open Assignment

variable {p : ObjectId → Prop} {g g' : Graph} {a a' : Assignment} {required required' : Names}
  {ids : List ObjectId}

theorem fix (h : Mirrors f p g g') (hids : ∀ x ∈ ids, p x)
    (hrequired : ∀ x : ObjectId, required'[f x]? = required[x]?) (ha : a.Renumbered f a') :
    Corresponds f (RenumberedWith f ids) (Assignment.fix g required a ids)
      (Assignment.fix g' required' a' (ids.map f)) := by
  induction ids generalizing a a' with
  | nil => exact .ok ⟨ha, rfl, nofun⟩
  | cons x rest ih =>
    have hrest : ∀ y ∈ rest, p y := fun y hy => hids y (List.mem_cons_of_mem x hy)
    rw [List.map_cons, Assignment.fix, Assignment.fix]
    refine (h.get (hids x List.mem_cons_self)).bind ?_
    rintro o _ rfl -
    dsimp only
    rw [fixedName?_renumber hrequired]
    cases fixedName? required x o with
    | none => exact (ih hrest ha).bind fun _ _ hfree _ => .ok hfree.cons
    | some name =>
      dsimp only
      rw [ha.space, show (a.space.renumber f).isKeyword name = a.space.isKeyword name from rfl]
      split
      · exact .error rfl
      · refine (Namespace.claim_renumber h.injective name x).bind ?_
        rintro ns _ rfl -
        have hspace := ha.withSpace ns
        rw [ha.names]
        split
        · exact (ih hrest hspace).mono fun _ _ hfree => hfree.mono
        · exact (ih hrest (hspace.rename h.injective x name)).mono fun _ _ hfree => hfree.mono

theorem freshen (h : Mirrors f p g g') (hids : ∀ x ∈ ids, p x) {style : NamingStyle}
    (hstyle : style.Ignores f) (ha : a.Renumbered f a') :
    Corresponds f (Assignment.Renumbered f) (Assignment.freshen g style a ids)
      (Assignment.freshen g' style a' (ids.map f)) := by
  induction ids generalizing a a' with
  | nil => exact .ok ha
  | cons x rest ih =>
    rw [List.map_cons, Assignment.freshen, Assignment.freshen]
    refine (h.get (hids x List.mem_cons_self)).bind ?_
    rintro o _ rfl -
    dsimp only
    rw [o.name?_renumber, ha.space, Namespace.suggest_renumber hstyle]
    refine (Namespace.claim_renumber h.injective _ x).bind ?_
    rintro ns _ rfl -
    refine ih (fun y hy => hids y (List.mem_cons_of_mem x hy)) ?_
    exact (ha.withSpace ns).rename h.injective x _

theorem staticNames_eq (h : Mirrors f p g g') (hids : ∀ x ∈ ids, p x) :
    staticNames g' (ids.map f) = staticNames g ids := by
  unfold staticNames
  rw [List.flatMap_map]
  refine List.flatMap_congr fun x hx => ?_
  rw [h.find?_eq x (hids x hx)]
  cases g.find? x with
  | none => rfl
  | some o => exact o.staticNames_renumber

/-- **Naming from nothing** gives the objects of a mirror the same names, or fails alike. -/
theorem ofClosure (h : Mirrors f p g g') {style : NamingStyle} (hstyle : style.Ignores f)
    (keywords : Bool) {c c' : Closure} (hc : c.Renumbered f c') (hobjects : ∀ x ∈ c.objects, p x) :
    Corresponds f (Assignment.Renumbered f) (Assignment.ofClosure g style keywords ∅ c)
      (Assignment.ofClosure g' style keywords ∅ c') := by
  unfold Assignment.ofClosure
  rw [hc.objects, hc.reserved, h.staticNames_eq hobjects]
  have hstart : ∀ reserved, Assignment.Renumbered f
      ⟨⟨∅, reserved, keywords⟩, ∅, []⟩ ⟨⟨∅, reserved, keywords⟩, ∅, []⟩ := fun reserved =>
    { space := by
        have hempty : (∅ : Std.ExtTreeMap String ObjectId).map (fun _ x => f x) = ∅ :=
          Std.ExtTreeMap.ext_getElem? fun n => by simp
        rw [Namespace.renumber, hempty]
      names := fun x => by simp
      renamed := rfl }
  refine (h.fix hobjects hc.required (hstart _)).bind ?_
  rintro ⟨b, free⟩ ⟨b', _⟩ ⟨hb, rfl, hfree⟩ -
  refine (keep_renumber h.injective hb free).bind ?_
  rintro ⟨d, unnamed⟩ ⟨d', _⟩ ⟨hd, rfl, hunnamed⟩ -
  exact h.freshen (fun x hx => hobjects x (hfree x (hunnamed x hx))) hstyle hd

end Graph.Mirrors

end ShaderLink
