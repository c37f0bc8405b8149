import Mathlib.Data.List.TakeWhile
import ShaderLink.Proofs.Store.Hereditary

/-!
# The names in signatures

Whatever a signature was read from, its types and the names of its arguments are names of the
language (`Signature.Readable`). A scan **answers only** things with some property
(`Glsl.Scan.Only`) if its parts do, so that is read off the scans that signatures are read with.

Functions keep the signatures they are read with, and chains have the types of their members, so all
signatures of a session are readable, whatever has been done in it (`Session.Reachable.readable`).
-/

namespace ShaderLink

namespace Glsl

namespace Scan

variable {α β : Type} {P : α → Prop} {Q : β → Prop} {x y : Scan α} {f : α → Scan β}

/-- Whether a scan answers only things with some property. -/
def Only (P : α → Prop) (x : Scan α) : Prop := ∀ s a r, x s = some (a, r) → P a

theorem only_pure {a : α} (h : P a) : Only P (pure a : Scan α) := by
  intro s b r hb
  cases hb
  exact h

theorem only_any (x : Scan α) : Only (fun _ => True) x := fun _ _ _ _ => trivial

theorem Only.bind (hx : Only P x) (hf : ∀ a, P a → Only Q (f a)) : Only Q (x >>= f) := by
  intro s b r h
  obtain ⟨⟨a, t⟩, ha, hb⟩ := Option.bind_eq_some_iff.1 h
  exact hf a (hx s a t ha) t b r hb

theorem Only.seqRight {z : Scan β} (hz : Only Q z) : Only Q (x *> z) :=
  (only_any x).bind fun _ _ => hz

/-- What is read behind blanks has the property as well. -/
theorem Only.scan? {a : α} {t : List Char} (hx : Only P x) (h : Glsl.scan? x t = some a) : P a := by
  obtain ⟨⟨a, r⟩, hscan, rfl⟩ := Option.map_eq_some_iff.1 h
  exact hx.seqRight t a r hscan

theorem Only.orElse (hx : Only P x) (hy : Only P y) : Only P (x <|> y) := by
  intro s a r h
  change (x s <|> y s) = some (a, r) at h
  cases hxs : x s with
  | none =>
    rw [hxs] at h
    exact hy s a r h
  | some found =>
    rw [hxs] at h
    cases h
    exact hx s a r hxs

/-- The items that follow the first one are items. -/
theorem forall_moreItems {item : Scan α} (h : Only P item) (s : List Char) :
    ∀ a ∈ (moreItems item s).1, P a := by
  have hcomma : Only P (comma *> item : Scan α) := h.seqRight
  induction s using moreItems.induct item with
  | case1 s hnone =>
    rw [moreItems, hnone]
    nofun
  | case2 s a r hsome hlt rest t hpair ih =>
    rw [moreItems, hsome]
    dsimp only
    rw [if_pos hlt]
    intro b hb
    obtain rfl | hb := List.mem_cons.1 hb
    · exact hcomma s _ r hsome
    · exact ih b hb
  | case3 s a r hsome hlt =>
    rw [moreItems, hsome]
    dsimp only
    rw [if_neg hlt]
    intro b hb
    rw [List.mem_singleton.1 hb]
    exact hcomma s a r hsome

theorem only_items {item : Scan α} (h : Only P item) : Only (∀ a ∈ ·, P a) (items item) := by
  have hmore : Only (∀ a ∈ ·, P a) (fun s => some (moreItems item s) : Scan (List α)) := by
    intro s l r hl
    have hmore : moreItems item s = (l, r) := Option.some.inj hl
    have hall := forall_moreItems h s
    rwa [hmore] at hall
  refine Only.orElse (h.bind fun first hfirst => hmore.bind fun rest hrest => ?_) (only_pure nofun)
  exact only_pure (List.forall_mem_cons.2 ⟨hfirst, hrest⟩)

theorem only_parenthesized {item : Scan α} (h : Only P item) :
    Only (∀ a ∈ ·, P a) (parenthesized item) := by
  refine (only_any _).bind fun _ _ => (only_any _).bind fun _ _ => ?_
  have hfound : Only (∀ a ∈ ·, P a)
      ((text voidType.toList *> pure []) <|> items item : Scan (List α)) :=
    (Only.seqRight (only_pure nofun)).orElse (only_items h)
  exact hfound.bind fun found hlist => (only_any _).bind fun _ _ => (only_any _).bind fun _ _ =>
    only_pure hlist

theorem only_name : Only (fun w => isName w.toList = true) name := by
  intro s w r h
  cases s with
  | nil => cases h
  | cons c s =>
    rw [name] at h
    by_cases hstart : isNameStart c = true
    · rw [if_pos hstart] at h
      cases h
      rw [String.toList_ofList, isName, hstart, Bool.true_and, List.all_eq_true]
      exact fun x hx => List.mem_takeWhile_imp hx
    · rw [if_neg hstart] at h
      cases h

theorem only_typeName : Only (fun w => isName w.toList = true) typeName :=
  only_name.bind fun _ hname => (only_any _).bind fun _ _ => only_pure hname

theorem only_argument :
    Only (fun a : Argument => isName a.type.toList = true ∧ isName a.name.toList = true) argument :=
  only_typeName.bind fun _ htype => (only_any _).bind fun _ _ => only_name.bind fun _ hname =>
    only_pure ⟨htype, hname⟩

end Scan

end Glsl

/-- A signature whose types and arguments have names. -/
structure Signature.Readable (s : Signature) : Prop where
  result : Glsl.isName s.result.toList = true
  arguments : ∀ a ∈ s.arguments, Glsl.isName a.type.toList = true ∧ Glsl.isName a.name.toList = true

theorem Glsl.Scan.only_signature : Only Signature.Readable signature :=
  only_typeName.bind fun _ hresult => (only_any _).bind fun _ _ => (only_any _).bind fun _ _ =>
    (only_any _).bind fun _ _ => (only_parenthesized only_argument).bind fun _ harguments =>
      (only_any _).bind fun _ _ => (only_any _).bind fun _ _ => only_pure ⟨hresult, harguments⟩

theorem Signature.readable_of_parse {code : String} {s : Signature} (h : parse code = .ok s) :
    s.Readable := by
  unfold parse at h
  split at h
  · next found hfound =>
    cases h
    obtain ⟨line, -, hline⟩ := List.exists_of_findSome?_eq_some hfound
    exact Glsl.Scan.only_signature.scan? hline
  · cases h

theorem Snippet.readable_of_ofCode {code : String} {s : Snippet} (h : ofCode code = .ok s) :
    s.signature.Readable :=
  Signature.readable_of_parse (current_of_ofCode h).2.2.signature

/-- A chain without members takes and returns nothing, which is readable. -/
theorem Signature.readable_void (name : String) (anonymous : Bool) :
    Signature.Readable { name, anonymous, arguments := [], result := Glsl.voidType } :=
  ⟨show Glsl.isName Glsl.voidType.toList = true by decide +kernel, nofun⟩

/-- An object whose signature is readable, if it has one. -/
def Object.Readable (o : Object) : Prop := ∀ s, o.signature? = some s → s.Readable

theorem Graph.All.readable_of_callable {g : Graph} (hg : g.All fun _ => Object.Readable)
    {x : ObjectId} {s : Signature} (h : g.callable x = .ok s) : s.Readable := by
  obtain ⟨o, ho, hsig⟩ := Option.bind_eq_some_iff.1 (Graph.callable_eq_ok_iff.1 h)
  exact hg x o ho s hsig

/-- The types of a chain are those of its members. -/
theorem Graph.All.readable_of_deriveTypes {g : Graph} (hg : g.All fun _ => Object.Readable)
    {members : List ObjectId} {types : List Argument × String}
    (h : g.deriveTypes members = .ok types) (name : String) (anonymous : Bool) :
    Signature.Readable { name, anonymous, arguments := types.1, result := types.2 } := by
  unfold Graph.deriveTypes at h
  split at h
  · next first last _ _ =>
    obtain ⟨s, hs, h⟩ := Except.bind_eq_ok_iff.1 h
    obtain ⟨t, ht, h⟩ := Except.bind_eq_ok_iff.1 h
    cases h
    exact ⟨(hg.readable_of_callable ht).result, (hg.readable_of_callable hs).arguments⟩
  · cases h
    exact Signature.readable_void name anonymous

/-- **Readable signatures are handed on.** -/
theorem hereditary_readable :
    Hereditary (fun _ => Object.Readable) (fun _ => True) (fun _ => True) fun _ => True where
  made := fun _ ho => by
    cases ho with
    | function h requires =>
      intro s hs
      have hread := Snippet.readable_of_ofCode h
      rwa [← Option.some.inj hs]
    | chain name anonymous =>
      intro s hs
      obtain rfl := Option.some.inj hs
      exact Signature.readable_void name anonymous
    | _ => exact nofun
  call := fun _ _ => nofun
  function := fun hadjusted h s hs => h s (by rw [← hs, hadjusted.eq]; rfl)
  replace := fun _ hr h s hs =>
    h s (by rw [← hs]; exact congrArg some (Snippet.replace_cases hr).2.1.symm)
  link := fun _ _ => nofun
  value := fun _ _ _ => nofun
  members := fun _ _ h => h
  types := fun hg htypes _ s hs => by
    obtain rfl := Option.some.inj hs
    exact hg.readable_of_deriveTypes htypes _ _

/-- **All signatures of a session are readable.** -/
theorem Session.Reachable.readable {σ : Session} (h : Reachable σ) (k : Nat) :
    (σ.graphs k).All fun _ => Object.Readable :=
  (h.all hereditary_readable).1 k

end ShaderLink
