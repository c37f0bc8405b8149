import Mathlib.Data.List.TakeWhile
import ShaderLink.Glsl.Scan
import ShaderLink.Text.Blank

/-!
# What scans read

For each scan of a token, the texts that it succeeds on, what it answers there, and what it leaves:
a run of characters is read to its end (`Stops`), so a scan of one leaves a text that does not go on
with it. A list with commas is read to its end if each of its items is (`Scan.moreItems_separated`).

The tokens of shader code are given as types: separating characters (`Blanks`), at least one of them
(`Gap`), names (`Word`) and the names of builtin types (`TypeWord`).
-/

namespace ShaderLink.Glsl

/-- Any number of the characters that separate tokens. -/
structure Blanks where
  chars : List Char
  isSpace_of_mem : ∀ c ∈ chars, isSpace c = true

/-- At least one of the characters that separate tokens. -/
structure Gap extends Blanks where
  ne_nil : chars ≠ []

/-- A name. -/
structure Word where
  text : String
  isName : isName text.toList = true

/-- The name of a builtin type. -/
structure TypeWord where
  text : String
  isType : isType text = true

/-- The type of a number. -/
def TypeWord.float : TypeWord := ⟨"float", by decide +kernel⟩

/-- No separating characters. -/
def Blanks.none : Blanks := ⟨[], nofun⟩

/-- A single blank. -/
def Gap.single : Gap :=
  ⟨⟨[' '], List.forall_mem_singleton.2 (by decide)⟩, List.cons_ne_nil _ _⟩

/-! ### Runs of characters -/

section Runs

variable {p q : Char → Bool} {c : Char} {s t r : List Char}

/-- A text **stops** a run of characters if it does not begin with one of them. -/
def Stops (p : Char → Bool) (r : List Char) : Prop := ∀ c ∈ r.head?, p c = false

theorem stops_nil : Stops p [] := nofun

@[simp] theorem stops_cons : Stops p (c :: s) ↔ p c = false := by simp [Stops]

theorem stops_dropWhile (s : List Char) : Stops p (s.dropWhile p) := by
  intro c hc
  cases h : s.dropWhile p with
  | nil => simp [h] at hc
  | cons d u =>
    obtain rfl : d = c := by simpa [h] using hc
    simpa [h] using List.head_dropWhile_not p (l := s) (by simp [h])

theorem takeWhile_append (ht : ∀ c ∈ t, p c = true) (hr : Stops p r) :
    (t ++ r).takeWhile p = t := by
  rw [List.takeWhile_append_of_pos ht]
  cases r with
  | nil => simp
  | cons c r => simp [stops_cons.1 hr]

theorem dropWhile_append (ht : ∀ c ∈ t, p c = true) (hr : Stops p r) :
    (t ++ r).dropWhile p = r := by
  rw [List.dropWhile_append_of_pos ht]
  cases r with
  | nil => rfl
  | cons c r => simp [stops_cons.1 hr]

end Runs

/-! ### Characters of tokens -/

section Characters

variable {c : Char} {r s : List Char}

theorem isNamePart_of_isNameStart (h : isNameStart c = true) : isNamePart c = true := by
  simp only [isNameStart, isNamePart, Char.isAlphanum, decide_eq_true_eq, Bool.or_eq_true] at h ⊢
  exact h.imp_left .inl

/-- No name holds a separating character. -/
theorem isNamePart_of_isSpace (h : isSpace c = true) : isNamePart c = false := by
  simp only [isSpace, decide_eq_true_eq] at h
  rcases h with rfl | rfl | rfl | rfl <;> decide

theorem isSpace_of_isNamePart (h : isNamePart c = true) : isSpace c = false := by
  by_contra hc
  rw [Bool.not_eq_false] at hc
  simp [isNamePart_of_isSpace hc] at h

theorem toNat_of_isNamePart (h : isNamePart c = true) : 48 ≤ c.toNat ∧ c.toNat ≤ 122 := by
  obtain halphanum | rfl : c.isAlphanum = true ∨ c = '_' := of_decide_eq_true h
  · obtain hletter | hdigit := Bool.or_eq_true_iff.1 halphanum
    · obtain hupper | hlower := Bool.or_eq_true_iff.1 hletter
      · obtain ⟨hA, hZ⟩ : 65 ≤ c.toNat ∧ c.toNat ≤ 90 := of_decide_eq_true hupper
        omega
      · obtain ⟨ha, hz⟩ := Bool.and_eq_true_iff.1 hlower
        have ha : 97 ≤ c.toNat := of_decide_eq_true ha
        have hz : c.toNat ≤ 122 := of_decide_eq_true hz
        omega
    · obtain ⟨hzero, hnine⟩ := Bool.and_eq_true_iff.1 hdigit
      have hzero : 48 ≤ c.toNat := of_decide_eq_true hzero
      have hnine : c.toNat ≤ 57 := of_decide_eq_true hnine
      omega
  · decide

/-- No name holds a blank character, of whatever kind. -/
theorem isNamePart_of_isBlank (h : Text.isBlank c = true) : isNamePart c = false := by
  by_contra hc
  obtain ⟨hlow, hhigh⟩ := toNat_of_isNamePart ((Bool.not_eq_false _).mp hc)
  simp only [Text.isBlank, Text.blankRanges, List.any_cons, List.any_nil, Bool.or_eq_true,
    Bool.and_eq_true, decide_eq_true_eq, Bool.false_eq_true, or_false] at h
  omega

theorem isNameStart_of_isBlank (h : Text.isBlank c = true) : isNameStart c = false := by
  by_contra hc
  have hpart := isNamePart_of_isNameStart ((Bool.not_eq_false _).mp hc)
  rw [isNamePart_of_isBlank h] at hpart
  cases hpart

theorem isName_cons :
    isName (c :: s) = true ↔ isNameStart c = true ∧ ∀ x ∈ s, isNamePart x = true := by
  simp [isName]

namespace Word

theorem exists_cons (w : Word) :
    ∃ c s, w.text.toList = c :: s ∧ isNameStart c = true ∧ ∀ x ∈ s, isNamePart x = true := by
  have h := w.isName
  cases hs : w.text.toList with
  | nil => simp [hs, Glsl.isName] at h
  | cons c s => exact ⟨c, s, rfl, isName_cons.1 (hs ▸ h)⟩

theorem isNamePart_of_mem (w : Word) {c : Char} (h : c ∈ w.text.toList) : isNamePart c = true := by
  obtain ⟨d, s, hs, hd, hall⟩ := w.exists_cons
  rw [hs] at h
  obtain rfl | h := List.mem_cons.1 h
  · exact isNamePart_of_isNameStart hd
  · exact hall c h

theorem notMem (w : Word) (h : isNamePart c = false) : c ∉ w.text.toList := by
  intro hmem
  rw [w.isNamePart_of_mem hmem] at h
  cases h

/-- A text that begins with a name does not begin with a separating character. -/
theorem stops_isSpace (w : Word) (r : List Char) : Stops isSpace (w.text.toList ++ r) := by
  obtain ⟨c, s, hs, hc, -⟩ := w.exists_cons
  rw [hs, List.cons_append, stops_cons]
  exact isSpace_of_isNamePart (isNamePart_of_isNameStart hc)

end Word

namespace TypeWord

/-- The name of a type is a name. -/
def word (t : TypeWord) : Word where
  text := t.text
  isName := by
    have htypes : ∀ w ∈ types, Glsl.isName w.toList = true := by decide +kernel
    exact htypes t.text (by simpa [Glsl.isType] using t.isType)

@[simp] theorem text_word (t : TypeWord) : t.word.text = t.text := rfl

end TypeWord

theorem Blanks.notMem (b : Blanks) (h : isSpace c = false) : c ∉ b.chars := by
  intro hmem
  rw [b.isSpace_of_mem c hmem] at h
  cases h

/-- Separating characters stop a name. -/
theorem Blanks.stops_isNamePart (b : Blanks) (hr : Stops isNamePart r) :
    Stops isNamePart (b.chars ++ r) := by
  obtain ⟨b, hb⟩ := b
  cases b with
  | nil => exact hr
  | cons c b => exact stops_cons.2 (isNamePart_of_isSpace (hb c List.mem_cons_self))

theorem Gap.stops_isNamePart (g : Gap) (r : List Char) : Stops isNamePart (g.chars ++ r) := by
  obtain ⟨⟨g, hg⟩, hne⟩ := g
  cases g with
  | nil => exact absurd rfl hne
  | cons c g => exact stops_cons.2 (isNamePart_of_isSpace (hg c List.mem_cons_self))

end Characters

namespace Scan

variable {α β : Type} {x y : Scan α} {f : α → Scan β} {z : Scan β} {a : α} {b : β}
variable {c : Char} {s t r : List Char} {w : String}

/-! ### Sequences and alternatives -/

theorem run_pure (a : α) (s : List Char) : (pure a : Scan α) s = some (a, s) := rfl

theorem run_bind (x : Scan α) (f : α → Scan β) (s : List Char) :
    (x >>= f) s = (x s).bind fun found => f found.1 found.2 := rfl

theorem run_seqRight (x : Scan α) (z : Scan β) (s : List Char) :
    (x *> z) s = (x s).bind fun found => z found.2 := rfl

theorem run_orElse (x y : Scan α) (s : List Char) : (x <|> y) s = (x s <|> y s) := rfl

theorem run_guard (p : Prop) [Decidable p] (s : List Char) :
    (guard p : Scan Unit) s = if p then some ((), s) else none := by
  unfold guard
  split <;> rfl

/-- A sequence reads what its parts read, one after the other. -/
theorem bind_eq_some_iff :
    (x >>= f) s = some (b, r) ↔ ∃ a t, x s = some (a, t) ∧ f a t = some (b, r) := by
  rw [run_bind, Option.bind_eq_some_iff]
  exact Prod.exists

theorem seqRight_eq_some_iff :
    (x *> z) s = some (b, r) ↔ ∃ a t, x s = some (a, t) ∧ z t = some (b, r) :=
  bind_eq_some_iff (f := fun _ => z)

theorem bind_of (hx : x s = some (a, t)) (hf : f a t = some (b, r)) : (x >>= f) s = some (b, r) :=
  bind_eq_some_iff.2 ⟨a, t, hx, hf⟩

theorem seqRight_of (hx : x s = some (a, t)) (hz : z t = some (b, r)) : (x *> z) s = some (b, r) :=
  seqRight_eq_some_iff.2 ⟨a, t, hx, hz⟩

theorem bind_eq_none (hx : x s = none) : (x >>= f) s = none := by
  rw [run_bind, hx]
  rfl

theorem seqRight_eq_none (hx : x s = none) : (x *> z) s = none := bind_eq_none (f := fun _ => z) hx

theorem bind_eq_none_of (hx : x s = some (a, t)) (hf : f a t = none) : (x >>= f) s = none := by
  rw [run_bind, hx]
  exact hf

theorem seqRight_eq_none_of (hx : x s = some (a, t)) (hz : z t = none) : (x *> z) s = none :=
  bind_eq_none_of (f := fun _ => z) hx hz

theorem orElse_left (hx : x s = some (a, r)) : (x <|> y) s = some (a, r) := by
  rw [run_orElse, hx]
  rfl

theorem orElse_right (hx : x s = none) : (x <|> y) s = y s := by
  rw [run_orElse, hx]
  rfl

/-- The second alternative is only tried where the first one fails. -/
theorem orElse_eq_some (h : (x <|> y) s = some (a, r)) :
    x s = some (a, r) ∨ x s = none ∧ y s = some (a, r) := by
  cases hx : x s with
  | none => exact .inr ⟨rfl, (orElse_right hx).symm.trans h⟩
  | some found => exact .inl ((orElse_left hx).symm.trans h)

/-! ### Tokens -/

theorem spaces_append (b : Blanks) (hr : Stops isSpace r) :
    spaces (b.chars ++ r) = some ((), r) := by
  rw [spaces, dropWhile_append b.isSpace_of_mem hr]

theorem spaces_eq_some (h : spaces s = some ((), r)) :
    (∃ b : Blanks, s = b.chars ++ r) ∧ Stops isSpace r := by
  obtain rfl : s.dropWhile isSpace = r := by simpa [spaces] using h
  refine ⟨⟨⟨s.takeWhile isSpace, fun c hc => ?_⟩, ?_⟩, stops_dropWhile s⟩
  · exact List.mem_takeWhile_imp hc
  · exact List.takeWhile_append_dropWhile.symm

theorem spaces1_append (g : Gap) (hr : Stops isSpace r) :
    spaces1 (g.chars ++ r) = some ((), r) := by
  obtain ⟨⟨g, hg⟩, hne⟩ := g
  cases g with
  | nil => exact absurd rfl hne
  | cons c g =>
    obtain ⟨hc, hg⟩ := List.forall_mem_cons.1 hg
    rw [List.cons_append, spaces1, if_pos hc, dropWhile_append hg hr]

theorem spaces1_eq_none (hs : Stops isSpace s) : spaces1 s = none := by
  cases s with
  | nil => rfl
  | cons c s => simp [spaces1, stops_cons.1 hs]

theorem spaces1_eq_some (h : spaces1 s = some ((), r)) :
    (∃ g : Gap, s = g.chars ++ r) ∧ Stops isSpace r := by
  cases s with
  | nil => cases h
  | cons c s =>
    by_cases hc : isSpace c = true
    · obtain rfl : s.dropWhile isSpace = r := by simpa [spaces1, hc] using h
      refine ⟨⟨⟨⟨c :: s.takeWhile isSpace, ?_⟩, List.cons_ne_nil _ _⟩, ?_⟩, stops_dropWhile s⟩
      · exact List.forall_mem_cons.2 ⟨hc, fun x hx => List.mem_takeWhile_imp hx⟩
      · simp [List.takeWhile_append_dropWhile]
    · simp [spaces1, hc] at h

/-- Where there may be separating characters, a scan for one of them reads all of them or fails. -/
theorem spaces1_blanks (b : Blanks) (hr : Stops isSpace r) :
    spaces1 (b.chars ++ r) = none ∨ spaces1 (b.chars ++ r) = some ((), r) := by
  obtain ⟨chars, hchars⟩ := b
  cases chars with
  | nil => exact .inl (spaces1_eq_none hr)
  | cons c chars => exact .inr (spaces1_append ⟨⟨c :: chars, hchars⟩, List.cons_ne_nil _ _⟩ hr)

@[simp] theorem char_cons (c : Char) (s : List Char) : char c (c :: s) = some ((), s) := by
  simp [char]

theorem char_eq_none (h : s.head? ≠ some c) : char c s = none := by
  cases s with
  | nil => rfl
  | cons d s =>
    have hd : d ≠ c := by simpa using h
    simp [char, hd]

theorem char_eq_some (h : char c s = some ((), r)) : s = c :: r := by
  cases s with
  | nil => cases h
  | cons d s =>
    by_cases hd : d = c
    · obtain rfl : s = r := by simpa [char, hd] using h
      rw [hd]
    · simp [char, hd] at h

theorem text_append (t r : List Char) : text t (t ++ r) = some ((), r) := by
  simp [text]

theorem text_eq_none (h : ¬ t <+: s) : text t s = none := by
  rw [text, if_neg]
  rwa [List.isPrefixOf_iff_prefix]

theorem text_eq_some (h : text t s = some ((), r)) : s = t ++ r := by
  by_cases hs : t <+: s
  · obtain ⟨u, rfl⟩ := hs
    rw [text_append] at h
    cases h
    rfl
  · rw [text_eq_none hs] at h
    cases h

/-- A name is read to its end, which may be the end of a longer name. -/
theorem name_word_append (w : Word) (r : List Char) :
    name (w.text.toList ++ r) = some
      (w.text ++ String.ofList (r.takeWhile isNamePart), r.dropWhile isNamePart) := by
  obtain ⟨c, s, hs, hc, hall⟩ := w.exists_cons
  rw [hs, List.cons_append, name, if_pos hc, List.takeWhile_append_of_pos hall,
    List.dropWhile_append_of_pos hall, ← List.cons_append, ← hs, String.ofList_append,
    String.ofList_toList]

theorem name_append (w : Word) (hr : Stops isNamePart r) :
    name (w.text.toList ++ r) = some (w.text, r) := by
  have hnone : r.takeWhile isNamePart = [] := takeWhile_append (t := []) nofun hr
  have hall : r.dropWhile isNamePart = r := dropWhile_append (t := []) nofun hr
  rw [name_word_append, hnone, hall, String.ofList_nil, String.append_empty]

theorem name_eq_none (hs : Stops isNameStart s) : name s = none := by
  cases s with
  | nil => rfl
  | cons c s => simp [name, stops_cons.1 hs]

theorem name_eq_some (h : name s = some (w, r)) :
    ∃ v : Word, v.text = w ∧ s = v.text.toList ++ r := by
  cases s with
  | nil => cases h
  | cons c s =>
    by_cases hc : isNameStart c = true
    · obtain ⟨rfl, rfl⟩ : String.ofList (c :: s.takeWhile isNamePart) = w ∧
          s.dropWhile isNamePart = r := by simpa [name, hc] using h
      refine ⟨⟨String.ofList (c :: s.takeWhile isNamePart), ?_⟩, rfl, ?_⟩
      · rw [String.toList_ofList, isName_cons]
        exact ⟨hc, fun x hx => List.mem_takeWhile_imp hx⟩
      · rw [String.toList_ofList, List.cons_append, List.takeWhile_append_dropWhile]
    · simp [name, hc] at h

theorem typeName_append (t : TypeWord) (hr : Stops isNamePart r) :
    typeName (t.text.toList ++ r) = some (t.text, r) := by
  have hname : name (t.text.toList ++ r) = some (t.text, r) := name_append t.word hr
  rw [typeName, run_bind, hname, Option.bind_some, run_bind, run_guard, if_pos t.isType]
  rfl

theorem typeName_eq_none (hs : Stops isNameStart s) : typeName s = none := by
  rw [typeName, run_bind, name_eq_none hs]
  rfl

theorem typeName_eq_none_of_not_isType (w : Word) (hr : Stops isNamePart r)
    (h : ¬ isType w.text = true) : typeName (w.text.toList ++ r) = none := by
  refine bind_eq_none_of (name_append w hr) (bind_eq_none ?_)
  rw [run_guard, if_neg h]

theorem typeName_eq_some (h : typeName s = some (w, r)) :
    ∃ t : TypeWord, t.text = w ∧ s = t.text.toList ++ r := by
  obtain ⟨v, u, hname, hguard⟩ := bind_eq_some_iff.1 h
  obtain ⟨v, rfl, rfl⟩ := name_eq_some hname
  by_cases htype : isType v.text = true
  · rw [run_bind, run_guard, if_pos htype] at hguard
    cases hguard
    exact ⟨⟨v.text, htype⟩, rfl, rfl⟩
  · rw [run_bind, run_guard, if_neg htype] at hguard
    cases hguard

/-! ### Lists -/

section Lists

variable {ι : Type} {item : Scan α} {chars : ι → List Char} {value : ι → α}
  {goesOn : List Char → Prop}

/-- What follows the first item of a list, as it is written: commas with what separates them from
their neighbours, each with the item behind it. -/
def separated (chars : ι → List Char) : List (Blanks × Blanks × ι) → List Char
  | [] => []
  | (b, b', x) :: more => b.chars ++ ',' :: (b'.chars ++ (chars x ++ separated chars more))

theorem comma_append (b b' : Blanks) (hr : Stops isSpace r) :
    comma (b.chars ++ ',' :: (b'.chars ++ r)) = some ((), r) :=
  bind_of (spaces_append b (stops_cons.2 (by decide)))
    (bind_of (char_cons _ _) (spaces_append b' hr))

theorem comma_eq_none (b : Blanks) (hs : Stops isSpace s) (h : s.head? ≠ some ',') :
    comma (b.chars ++ s) = none :=
  bind_eq_none_of (spaces_append b hs) (bind_eq_none (char_eq_none h))

/-- A list goes on with a comma or with what ends it. -/
theorem goesOn_separated (hcomma : ∀ (b : Blanks) s, goesOn (b.chars ++ ',' :: s)) (hr : goesOn r)
    (more : List (Blanks × Blanks × ι)) : goesOn (separated chars more ++ r) := by
  cases more with
  | nil => exact hr
  | cons m more =>
    obtain ⟨b, b', x⟩ := m
    have h := hcomma b (b'.chars ++ (chars x ++ (separated chars more ++ r)))
    simpa [separated] using h

/-- **All items of a list are read, up to what ends it**, if an item is read wherever the list may
go on behind it, and the end does not begin with a comma. -/
theorem moreItems_separated (hitem : ∀ x s, goesOn s → item (chars x ++ s) = some (value x, s))
    (hstart : ∀ x s, Stops isSpace (chars x ++ s))
    (hcomma : ∀ (b : Blanks) s, goesOn (b.chars ++ ',' :: s)) (hr : goesOn r)
    (hend : comma r = none) (more : List (Blanks × Blanks × ι)) :
    moreItems item (separated chars more ++ r) = (more.map fun m => value m.2.2, r) := by
  induction more with
  | nil =>
    have hnone : (comma *> item : Scan α) r = none := seqRight_eq_none hend
    rw [separated, List.nil_append, moreItems, hnone]
    rfl
  | cons m more ih =>
    obtain ⟨b, b', x⟩ := m
    have hsome : (comma *> item : Scan α)
        (b.chars ++ ',' :: (b'.chars ++ (chars x ++ (separated chars more ++ r)))) =
        some (value x, separated chars more ++ r) :=
      seqRight_of (comma_append b b' (hstart x _)) (hitem x _ (goesOn_separated hcomma hr more))
    have htext : separated chars ((b, b', x) :: more) ++ r =
        b.chars ++ ',' :: (b'.chars ++ (chars x ++ (separated chars more ++ r))) := by
      simp [separated]
    rw [htext, moreItems, hsome]
    dsimp only
    rw [if_pos (by simp; omega), ih]
    rfl

end Lists

end Scan

/-! ### Scans behind separating characters -/

section SkippingBlanks

variable {α : Type} {a : α} {s r : List Char}

/-- Separating characters in front of a text make no difference. -/
theorem scan?_blanks (x : Scan α) (b : Blanks) (s : List Char) :
    scan? x (b.chars ++ s) = scan? x s := by
  have hdrop : (b.chars ++ s).dropWhile isSpace = s.dropWhile isSpace :=
    List.dropWhile_append_of_pos b.isSpace_of_mem
  rw [scan?, scan?, Scan.run_seqRight, Scan.run_seqRight, Scan.spaces, Scan.spaces, hdrop]

theorem scan?_of_stops (x : Scan α) (hs : Stops isSpace s) : scan? x s = (x s).map (·.1) := by
  have hspaces : Scan.spaces s = some ((), s) := Scan.spaces_append .none hs
  rw [scan?, Scan.run_seqRight, hspaces]
  rfl

theorem scan?_append {x : Scan α} (b : Blanks) (hs : Stops isSpace s) (h : x s = some (a, r)) :
    scan? x (b.chars ++ s) = some a := by
  rw [scan?_blanks, scan?_of_stops x hs, h]
  rfl

theorem scan?_eq_none {x : Scan α} (hs : Stops isSpace s) (h : x s = none) : scan? x s = none := by
  rw [scan?_of_stops x hs, h]
  rfl

end SkippingBlanks

end ShaderLink.Glsl
