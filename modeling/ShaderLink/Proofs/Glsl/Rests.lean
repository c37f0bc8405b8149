import ShaderLink.Glsl.Declaration
import ShaderLink.Proofs.Glsl.Head

/-!
# What scans leave

A scan **takes from the front** if what it leaves is always an end of the text it was given
(`Glsl.Scan.TakesFront`). The tokens do, and a scan does if its parts do; so signatures, prototypes
and declarations are read without ever looking at a text that does not begin at a character of the
code. The text behind a comma is shorter than the text in front of it, which is what the length test
in `moreItems` asks for: it is passed by every item that takes from the front
(`length_lt_of_commaItem`).
-/

namespace ShaderLink.Glsl.Scan

variable {α β : Type} {x y : Scan α} {f : α → Scan β} {item : Scan α} {a : α} {s r : List Char}

/-- What a scan leaves is an end of the text it was given. -/
def TakesFront (x : Scan α) : Prop := ∀ s a r, x s = some (a, r) → r <:+ s

/-! ### Sequences and alternatives -/

theorem takesFront_pure (a : α) : TakesFront (pure a) := by
  intro s b r h
  cases h
  exact List.suffix_rfl

theorem TakesFront.bind (hx : TakesFront x) (hf : ∀ a, TakesFront (f a)) :
    TakesFront (x >>= f) := by
  intro s b r h
  obtain ⟨a, t, hxs, hft⟩ := bind_eq_some_iff.1 h
  exact (hf a t b r hft).trans (hx s a t hxs)

theorem TakesFront.seqRight {z : Scan β} (hx : TakesFront x) (hz : TakesFront z) :
    TakesFront (x *> z) :=
  hx.bind fun _ => hz

theorem TakesFront.orElse (hx : TakesFront x) (hy : TakesFront y) : TakesFront (x <|> y) := by
  intro s a r h
  obtain h | ⟨-, h⟩ := orElse_eq_some h
  · exact hx s a r h
  · exact hy s a r h

/-! ### Tokens -/

theorem takesFront_spaces : TakesFront spaces := by
  intro s a r h
  obtain rfl : s.dropWhile isSpace = r := by simpa [spaces] using h
  exact List.dropWhile_suffix _

theorem takesFront_spaces1 : TakesFront spaces1 := by
  intro s a r h
  obtain ⟨⟨g, rfl⟩, -⟩ := spaces1_eq_some h
  exact List.suffix_append _ _

theorem takesFront_char (c : Char) : TakesFront (char c) := by
  intro s a r h
  rw [char_eq_some h]
  exact List.suffix_cons c r

theorem takesFront_text (t : List Char) : TakesFront (text t) := by
  intro s a r h
  rw [text_eq_some h]
  exact List.suffix_append t r

theorem takesFront_name : TakesFront name := by
  intro s w r h
  obtain ⟨w, -, rfl⟩ := name_eq_some h
  exact List.suffix_append _ _

theorem takesFront_typeName : TakesFront typeName := by
  intro s w r h
  obtain ⟨t, -, rfl⟩ := typeName_eq_some h
  exact List.suffix_append _ _

theorem takesFront_qualifier : TakesFront qualifier := by
  refine takesFront_name.bind fun word s q r h => ?_
  -- looking up a word leaves the text alone
  cases hq : Qualifier.ofKeyword? word with
  | none =>
    rw [hq] at h
    cases h
  | some q' =>
    rw [hq] at h
    cases h
    exact List.suffix_rfl

theorem takesFront_placeholder : TakesFront placeholder := by
  refine (takesFront_char _).bind fun _ => TakesFront.orElse ?_ takesFront_name
  refine (takesFront_char _).bind fun _ => takesFront_name.bind fun word => ?_
  exact (takesFront_char _).bind fun _ => takesFront_pure word

/-! ### Lists -/

theorem takesFront_comma : TakesFront comma :=
  takesFront_spaces.bind fun _ => (takesFront_char _).bind fun _ => takesFront_spaces

/-- Less is left behind an item and the comma in front of it. -/
theorem length_lt_of_commaItem (hitem : TakesFront item)
    (h : (comma *> item : Scan α) s = some (a, r)) : r.length < s.length := by
  obtain ⟨⟨⟩, t, hcomma, hread⟩ := seqRight_eq_some_iff.1 h
  obtain ⟨b, b', rfl⟩ := exists_of_comma hcomma
  have hle := (hitem t a r hread).length_le
  simp only [List.length_append, List.length_cons]
  omega

theorem suffix_moreItems (hitem : TakesFront item) (s : List Char) :
    (moreItems item s).2 <:+ s := by
  induction s using moreItems.induct item with
  | case1 s hnone =>
    rw [moreItems]
    simp only [hnone, List.suffix_rfl]
  | case2 s a r hsome hlt rest t hpair ih =>
    rw [moreItems, hsome]
    dsimp only
    rw [if_pos hlt]
    exact ih.trans (takesFront_comma.seqRight hitem s a r hsome)
  | case3 s a r hsome hlt => exact absurd (length_lt_of_commaItem hitem hsome) hlt

theorem TakesFront.items (hitem : TakesFront item) : TakesFront (items1 item) := by
  refine hitem.bind fun first => TakesFront.bind ?_ fun rest => takesFront_pure _
  intro s l r h
  obtain ⟨rfl, rfl⟩ : (moreItems item s).1 = l ∧ (moreItems item s).2 = r :=
    Prod.ext_iff.1 (Option.some.inj h)
  exact suffix_moreItems hitem s

theorem TakesFront.parenthesized (hitem : TakesFront item) : TakesFront (parenthesized item) := by
  have hfound : TakesFront
      ((text voidType.toList *> pure []) <|> Scan.items item : Scan (List α)) :=
    ((takesFront_text _).seqRight (takesFront_pure _)).orElse
      (hitem.items.orElse (takesFront_pure _))
  refine (takesFront_char _).bind fun _ => takesFront_spaces.bind fun _ => ?_
  exact hfound.bind fun found => takesFront_spaces.bind fun _ => (takesFront_char _).bind fun _ =>
    takesFront_pure found

/-! ### Heads and declarations -/

theorem takesFront_argument : TakesFront argument :=
  takesFront_typeName.bind fun _ => takesFront_spaces1.bind fun _ => takesFront_name.bind fun _ =>
    takesFront_pure _

theorem takesFront_argumentType : TakesFront argumentType := by
  refine takesFront_typeName.bind fun type => TakesFront.bind ?_ fun _ => takesFront_pure type
  refine TakesFront.orElse ?_ (takesFront_pure _)
  exact (takesFront_spaces1.seqRight takesFront_name).seqRight (takesFront_pure _)

theorem takesFront_functionName : TakesFront functionName :=
  (takesFront_placeholder.bind fun _ => takesFront_pure _).orElse
    (takesFront_name.bind fun _ => takesFront_pure _)

/-- **Signatures are taken from the front.** -/
theorem takesFront_signature : TakesFront signature :=
  takesFront_typeName.bind fun _ => takesFront_spaces1.bind fun _ =>
    takesFront_functionName.bind fun _ => takesFront_spaces.bind fun _ =>
      takesFront_argument.parenthesized.bind fun _ => takesFront_spaces.bind fun _ =>
        (takesFront_char _).bind fun _ => takesFront_pure _

/-- **Prototypes are taken from the front.** -/
theorem takesFront_prototype : TakesFront prototype :=
  takesFront_typeName.bind fun _ => takesFront_spaces1.bind fun _ => takesFront_name.bind fun _ =>
    takesFront_spaces.bind fun _ => takesFront_argumentType.parenthesized.bind fun _ =>
      takesFront_spaces.bind fun _ => (takesFront_char _).bind fun _ => takesFront_pure _

/-- **Declarations are taken from the front.** -/
theorem takesFront_declaration : TakesFront declaration := by
  have hqualifier : TakesFront
      ((do let q ← qualifier; spaces1; return some q) <|> pure none : Scan (Option Qualifier)) :=
    (takesFront_qualifier.bind fun _ => takesFront_spaces1.bind fun _ => takesFront_pure _).orElse
      (takesFront_pure none)
  refine hqualifier.bind fun _ => takesFront_typeName.bind fun _ => ?_
  refine takesFront_spaces1.bind fun _ => takesFront_name.items.bind fun _ => ?_
  refine takesFront_spaces.bind fun _ => ?_
  exact ((takesFront_char _).orElse (takesFront_char _)).bind fun _ => takesFront_pure _

end ShaderLink.Glsl.Scan
