import ShaderLink.Glsl.Signature
import ShaderLink.Proofs.Glsl.Scan

/-!
# Heads of functions as they are written

A **head** is written as a type, a name and a list of parameters in parentheses, with separating
characters wherever two of its tokens meet (`Head`). The name may be written as a placeholder
(`NameForm`), and an empty list with the word `void` (`Parameters`). What stands behind the type of
a parameter is left open: a name for a signature (`Named`), a name or nothing for a prototype.

A scan of a signature reads exactly the heads that are written in this way and end in a brace
(`Scan.signature_eq_some_iff`). Both directions go token by token: a head is read from left to right
(`Scan.signature_append`), and what has been read was a head (`Scan.exists_of_signature`). A
prototype is read from every head that ends in a semicolon (`Scan.prototype_append`).
-/

namespace ShaderLink.Glsl

/-! ### Names -/

/-- The ways to write the name of a function. -/
inductive NameForm where
  | plain
  /-- Behind a dollar sign. -/
  | dollar
  /-- In braces behind a dollar sign. -/
  | braced

namespace NameForm

/-- Whether the linker chooses the name of a function whose name is written in this way. -/
def anonymous : NameForm → Bool
  | plain => false
  | dollar | braced => true

/-- A name as it is written. -/
def chars (w : Word) : NameForm → List Char
  | plain => w.text.toList
  | dollar => '$' :: w.text.toList
  | braced => '$' :: '{' :: (w.text.toList ++ ['}'])

end NameForm

/-! ### Parameters -/

/-- A parameter, with what stands behind its type. -/
structure Parameter (ν : Type) where
  type : TypeWord
  behind : ν

/-- A name behind a type. -/
structure Named where
  gap : Gap
  name : Word

variable {ν α : Type}

/-- A name behind a type, as it is written. -/
def Named.chars (n : Named) : List Char := n.gap.chars ++ n.name.text.toList

/-- A name behind a type, if there is one. -/
def optionalChars (n : Option Named) : List Char := (n.map Named.chars).getD []

/-- A parameter as it is written. -/
def Parameter.chars (behind : ν → List Char) (p : Parameter ν) : List Char :=
  p.type.text.toList ++ behind p.behind

/-- What follows the first parameter: commas with what separates them from their neighbours, each
with the parameter behind it. -/
abbrev More (ν : Type) := List (Blanks × Blanks × Parameter ν)

/-- The parameters that follow the first one, as they are written. -/
def More.chars (behind : ν → List Char) : More ν → List Char
  | [] => []
  | (b, b', p) :: more =>
    b.chars ++ ',' :: (b'.chars ++ (p.chars behind ++ More.chars behind more))

/-- What stands between the parentheses of a head. -/
inductive Parameters (ν : Type) where
  | empty (inside : Blanks)
  /-- The word `void` for an empty list. -/
  | void (before behind : Blanks)
  /-- The first parameter is not of type `void`, which would be taken for the word. -/
  | list (before : Blanks) (first : Parameter ν) (ne_void : first.type.text ≠ voidType)
      (more : More ν) (behind : Blanks)

namespace Parameters

/-- The parameters. -/
def toList : Parameters ν → List (Parameter ν)
  | empty _ | void _ _ => []
  | list _ first _ more _ => first :: more.map (·.2.2)

/-- What stands between the parentheses, as it is written. -/
def chars (behind : ν → List Char) : Parameters ν → List Char
  | empty inside => inside.chars
  | void b b' => b.chars ++ (voidType.toList ++ b'.chars)
  | list b first _ more b' =>
    b.chars ++ (first.chars behind ++ (More.chars behind more ++ b'.chars))

end Parameters

/-! ### Heads -/

/-- The head of a function, up to what ends it. -/
structure Head (ν : Type) where
  result : TypeWord
  gap : Gap
  name : Word
  beforeList : Blanks
  parameters : Parameters ν
  behindList : Blanks

namespace Head

/-- A head as it is written. -/
def chars (behind : ν → List Char) (form : NameForm) (h : Head ν) : List Char :=
  h.result.text.toList ++ (h.gap.chars ++ (form.chars h.name ++ (h.beforeList.chars ++
    '(' :: (h.parameters.chars behind ++ ')' :: h.behindList.chars))))

/-- A named parameter as an argument. -/
def argument (p : Parameter Named) : Argument :=
  { type := p.type.text, name := p.behind.name.text }

/-- The signature that a head writes. -/
def signature (form : NameForm) (h : Head Named) : Signature where
  name := h.name.text
  anonymous := form.anonymous
  arguments := h.parameters.toList.map argument
  result := h.result.text

/-- The prototype that a head writes. -/
def prototype (h : Head (Option Named)) : Prototype where
  name := h.name.text
  argumentTypes := h.parameters.toList.map (·.type.text)
  result := h.result.text

end Head

namespace Scan

variable {behind : ν → List Char} {value : Parameter ν → α} {item : Scan α}
variable {a : α} {s r : List Char}

/-! ### Reading names -/

theorem placeholder_dollar (w : Word) (hr : Stops isNamePart r) :
    placeholder ('$' :: (w.text.toList ++ r)) = some (w.text, r) := by
  have hbrace : (do char '{'; let word ← name; char '}'; return word : Scan String)
      (w.text.toList ++ r) = none := by
    refine bind_eq_none (char_eq_none ?_)
    obtain ⟨c, s, hs, hc, -⟩ := w.exists_cons
    rw [hs, List.cons_append, List.head?_cons]
    rintro ⟨⟩
    exact absurd hc (by decide)
  refine bind_of (char_cons _ _) ?_
  rw [orElse_right hbrace]
  exact name_append w hr

theorem placeholder_braced (w : Word) (r : List Char) :
    placeholder ('$' :: '{' :: (w.text.toList ++ '}' :: r)) = some (w.text, r) := by
  refine bind_of (char_cons _ _) (orElse_left ?_)
  refine bind_of (char_cons _ _) (bind_of (name_append w ?_) (bind_of (char_cons _ _) rfl))
  exact stops_cons.2 (by decide)

/-- What is read as a placeholder is a name in one of its two forms. -/
theorem exists_of_placeholder {n : String} (h : placeholder s = some (n, r)) :
    ∃ w : Word, w.text = n ∧ (s = '$' :: (w.text.toList ++ r) ∨
      s = '$' :: '{' :: (w.text.toList ++ '}' :: r)) := by
  obtain ⟨⟨⟩, t, hdollar, h⟩ := bind_eq_some_iff.1 h
  rw [char_eq_some hdollar]
  obtain h | ⟨-, h⟩ := orElse_eq_some h
  · obtain ⟨⟨⟩, u, hopen, h⟩ := bind_eq_some_iff.1 h
    obtain ⟨n', v, hname, h⟩ := bind_eq_some_iff.1 h
    obtain ⟨⟨⟩, x, hclose, hend⟩ := bind_eq_some_iff.1 h
    cases hend
    obtain ⟨w, rfl, rfl⟩ := name_eq_some hname
    rw [char_eq_some hopen, char_eq_some hclose]
    exact ⟨w, rfl, .inr rfl⟩
  · obtain ⟨w, rfl, rfl⟩ := name_eq_some h
    exact ⟨w, rfl, .inl rfl⟩

theorem placeholder_eq_none (h : s.head? ≠ some '$') : placeholder s = none :=
  bind_eq_none (char_eq_none h)

theorem functionName_append (form : NameForm) (w : Word) (hr : Stops isNamePart r) :
    functionName (form.chars w ++ r) = some ((w.text, form.anonymous), r) := by
  cases form with
  | plain =>
    have hplaceholder : placeholder (w.text.toList ++ r) = none := by
      refine placeholder_eq_none ?_
      obtain ⟨c, s, hs, hc, -⟩ := w.exists_cons
      rw [hs, List.cons_append, List.head?_cons]
      rintro ⟨⟩
      exact absurd hc (by decide)
    show functionName (w.text.toList ++ r) = some ((w.text, false), r)
    rw [functionName, orElse_right (bind_eq_none hplaceholder)]
    exact bind_of (name_append w hr) rfl
  | dollar => exact orElse_left (bind_of (placeholder_dollar w hr) rfl)
  | braced =>
    refine orElse_left (bind_of ?_ rfl)
    simpa [NameForm.chars] using placeholder_braced w r

theorem exists_of_functionName {n : String} {anonymous : Bool}
    (h : functionName s = some ((n, anonymous), r)) :
    ∃ (w : Word) (form : NameForm), w.text = n ∧ form.anonymous = anonymous ∧
      s = form.chars w ++ r := by
  obtain h | ⟨-, h⟩ := orElse_eq_some h
  · obtain ⟨n', t, hplaceholder, h⟩ := bind_eq_some_iff.1 h
    cases h
    obtain ⟨w, rfl, rfl | rfl⟩ := exists_of_placeholder hplaceholder
    · exact ⟨w, .dollar, rfl, rfl, rfl⟩
    · exact ⟨w, .braced, rfl, rfl, by simp [NameForm.chars]⟩
  · obtain ⟨n', t, hname, h⟩ := bind_eq_some_iff.1 h
    cases h
    obtain ⟨w, rfl, rfl⟩ := name_eq_some hname
    exact ⟨w, .plain, rfl, rfl, rfl⟩

/-- Neither a name nor a placeholder begins with another character. -/
theorem functionName_eq_none (h : Stops isNameStart s) (hdollar : s.head? ≠ some '$') :
    functionName s = none := by
  rw [functionName, orElse_right (bind_eq_none (placeholder_eq_none hdollar))]
  exact bind_eq_none (name_eq_none h)

/-! ### Reading parameters -/

/-- A text that goes on with a comma or a closing parenthesis, separating characters skipped. -/
def Closes (r : List Char) : Prop :=
  ∃ (b : Blanks) (c : Char) (s : List Char), (c = ',' ∨ c = ')') ∧ r = b.chars ++ c :: s

theorem Closes.stops_isNamePart (h : Closes r) : Stops isNamePart r := by
  obtain ⟨b, c, s, hc, rfl⟩ := h
  refine b.stops_isNamePart (stops_cons.2 ?_)
  obtain rfl | rfl := hc <;> decide

theorem More.chars_eq (behind : ν → List Char) (more : More ν) :
    More.chars behind more = separated (Parameter.chars behind) more := by
  induction more with
  | nil => rfl
  | cons m more ih => rw [More.chars, ih, separated]

theorem closes_more (behind : ν → List Char) (more : More ν) (b : Blanks) (s : List Char) :
    Closes (More.chars behind more ++ (b.chars ++ ')' :: s)) := by
  rw [More.chars_eq]
  exact goesOn_separated (fun b s => ⟨b, ',', s, .inl rfl, rfl⟩) ⟨b, ')', s, .inr rfl, rfl⟩ more

/-- A scan of parameters: it reads each of them wherever the list may go on behind it, and nothing
that does not begin with a name. -/
structure ReadsParameters (item : Scan α) (behind : ν → List Char) (value : Parameter ν → α) :
    Prop where
  append : ∀ p r, Closes r → item (p.chars behind ++ r) = some (value p, r)
  eq_none : ∀ s, Stops isNameStart s → item s = none

theorem Parameter.stops_isSpace (p : Parameter ν) (r : List Char) :
    Stops isSpace (p.chars behind ++ r) := by
  rw [Parameter.chars, List.append_assoc]
  exact p.type.word.stops_isSpace _

/-- All parameters of a list are read, up to what closes it. -/
theorem moreItems_append (h : ReadsParameters item behind value) (more : More ν) (b : Blanks)
    (s : List Char) :
    moreItems item (More.chars behind more ++ (b.chars ++ ')' :: s)) =
      (more.map fun m => value m.2.2, b.chars ++ ')' :: s) := by
  rw [More.chars_eq]
  refine moreItems_separated h.append Parameter.stops_isSpace
    (fun b s => ⟨b, ',', s, .inl rfl, rfl⟩) ⟨b, ')', s, .inr rfl, rfl⟩ ?_ more
  exact comma_eq_none b (stops_cons.2 (by decide)) (by simp)

/-- The word `void` is no prefix of another type. -/
theorem not_void_prefix (t : TypeWord) (h : t.text ≠ voidType) (r : List Char) :
    ¬ voidType.toList <+: t.text.toList ++ r := by
  have htypes : ∀ w ∈ types, w ≠ voidType →
      2 ≤ w.toList.length ∧ w.toList.take 2 ≠ voidType.toList.take 2 := by decide +kernel
  obtain ⟨hlength, hne⟩ := htypes t.text (by simpa [isType] using t.isType) h
  rintro ⟨u, hu⟩
  have htake : (voidType.toList ++ u).take 2 = (t.text.toList ++ r).take 2 := congrArg _ hu
  rw [List.take_append_of_le_length hlength, List.take_append_of_le_length (by decide)] at htake
  exact hne htake.symm

theorem items_eq_nil (h : ReadsParameters item behind value) (hs : Stops isNameStart s) :
    items item s = some ([], s) :=
  (orElse_right (bind_eq_none (h.eq_none s hs))).trans (run_pure [] s)

/-- **What stands between two parentheses is read as the list that it writes.** -/
theorem parenthesized_append (h : ReadsParameters item behind value) (ps : Parameters ν)
    (r : List Char) :
    parenthesized item ('(' :: (ps.chars behind ++ ')' :: r)) = some (ps.toList.map value, r) := by
  have hclose : Stops isSpace (')' :: r) := stops_cons.2 (by decide)
  refine bind_of (char_cons _ _) ?_
  cases ps with
  | empty inside =>
    have hvoid : (text voidType.toList *> pure [] : Scan (List α)) (')' :: r) = none :=
      seqRight_eq_none (text_eq_none (by simp [voidType]))
    refine bind_of (spaces_append inside hclose) (bind_of (t := ')' :: r) (a := []) ?_ ?_)
    · exact (orElse_right hvoid).trans (items_eq_nil h (stops_cons.2 (by decide)))
    · exact bind_of (spaces_append .none hclose) (bind_of (char_cons _ _) rfl)
  | void b b' =>
    have hstops : Stops isSpace (voidType.toList ++ (b'.chars ++ ')' :: r)) :=
      stops_cons.2 (by decide)
    have htext : (Parameters.void b b' : Parameters ν).chars behind ++ ')' :: r =
        b.chars ++ (voidType.toList ++ (b'.chars ++ ')' :: r)) := by
      simp [Parameters.chars]
    rw [htext]
    refine bind_of (spaces_append b hstops) (bind_of (t := b'.chars ++ ')' :: r) (a := []) ?_ ?_)
    · exact orElse_left (seqRight_of (text_append _ _) (run_pure _ _))
    · exact bind_of (spaces_append b' hclose) (bind_of (char_cons _ _) rfl)
  | list b first ne_void more b' =>
    have htext : (Parameters.list b first ne_void more b').chars behind ++ ')' :: r =
        b.chars ++ (first.chars behind ++ (More.chars behind more ++ (b'.chars ++ ')' :: r))) := by
      simp [Parameters.chars]
    rw [htext]
    refine bind_of (spaces_append b (Parameter.stops_isSpace first _)) (bind_of
      (t := b'.chars ++ ')' :: r) (a := value first :: more.map fun m => value m.2.2) ?_ ?_)
    · have hvoid : (text voidType.toList *> pure [] : Scan (List α)) (first.chars behind ++
          (More.chars behind more ++ (b'.chars ++ ')' :: r))) = none := by
        refine seqRight_eq_none (text_eq_none ?_)
        rw [Parameter.chars, List.append_assoc]
        exact not_void_prefix first.type ne_void _
      rw [orElse_right hvoid]
      refine orElse_left (bind_of (h.append first _ (closes_more behind more b' r)) ?_)
      exact bind_of (congrArg some (moreItems_append h more b' r)) rfl
    · refine bind_of (spaces_append b' hclose) (bind_of (char_cons _ _) ?_)
      rw [Parameters.toList, List.map_cons, List.map_map]
      rfl

theorem readsParameters_argument : ReadsParameters argument Named.chars Head.argument where
  append p r hr := by
    have htext : p.chars Named.chars ++ r =
        p.type.text.toList ++ (p.behind.gap.chars ++ (p.behind.name.text.toList ++ r)) := by
      simp [Parameter.chars, Named.chars]
    rw [htext]
    refine bind_of (typeName_append p.type (p.behind.gap.stops_isNamePart _)) ?_
    refine bind_of (spaces1_append p.behind.gap (p.behind.name.stops_isSpace r)) ?_
    exact bind_of (name_append p.behind.name hr.stops_isNamePart) rfl
  eq_none s hs := bind_eq_none (typeName_eq_none hs)

theorem readsParameters_argumentType :
    ReadsParameters argumentType optionalChars (·.type.text) where
  append p r hr := by
    obtain ⟨type, n⟩ := p
    cases n with
    | none =>
      -- separating characters may follow the type, and no name behind them
      have hnone : (spaces1 *> name *> pure () : Scan Unit) r = none := by
        obtain ⟨b, c, s, hc, rfl⟩ := hr
        have hspace : Stops isSpace (c :: s) := by
          obtain rfl | rfl := hc <;> exact stops_cons.2 (by decide)
        have hname : Stops isNameStart (c :: s) := by
          obtain rfl | rfl := hc <;> exact stops_cons.2 (by decide)
        refine seqRight_eq_none ?_
        obtain hnone | hread := spaces1_blanks b hspace
        · exact seqRight_eq_none hnone
        · exact seqRight_eq_none_of hread (name_eq_none hname)
      have htext : (⟨type, none⟩ : Parameter (Option Named)).chars optionalChars ++ r =
          type.text.toList ++ r := by
        simp [Parameter.chars, optionalChars]
      rw [htext]
      refine bind_of (typeName_append type hr.stops_isNamePart) (bind_of (t := r) (a := ()) ?_ rfl)
      rw [orElse_right hnone]
      rfl
    | some n =>
      have htext : (⟨type, some n⟩ : Parameter (Option Named)).chars optionalChars ++ r =
          type.text.toList ++ (n.gap.chars ++ (n.name.text.toList ++ r)) := by
        simp [Parameter.chars, optionalChars, Named.chars]
      rw [htext]
      refine bind_of (typeName_append type (n.gap.stops_isNamePart _))
        (bind_of (t := r) (a := ()) (orElse_left ?_) rfl)
      have hgap := spaces1_append n.gap (n.name.stops_isSpace r)
      exact seqRight_of (seqRight_of hgap (name_append n.name hr.stops_isNamePart)) rfl
  eq_none s hs := bind_eq_none (typeName_eq_none hs)

/-! ### Reading heads -/

/-- A head with what follows it, in the order in which it is read. -/
theorem head_append (behind : ν → List Char) (form : NameForm) (h : Head ν) (r : List Char) :
    h.chars behind form ++ r =
      h.result.text.toList ++ (h.gap.chars ++ (form.chars h.name ++ (h.beforeList.chars ++
        '(' :: (h.parameters.chars behind ++ ')' :: (h.behindList.chars ++ r))))) := by
  simp [Head.chars]

theorem stops_isSpace_form (form : NameForm) (w : Word) (r : List Char) :
    Stops isSpace (form.chars w ++ r) := by
  cases form with
  | plain => exact w.stops_isSpace r
  | dollar | braced => exact stops_cons.2 (by decide)

/-- **Every head that ends in a brace is read as the signature that it writes.** -/
theorem signature_append (form : NameForm) (h : Head Named) (r : List Char) :
    signature (h.chars Named.chars form ++ '{' :: r) = some (h.signature form, r) := by
  have hlist : Stops isNamePart (h.beforeList.chars ++
      '(' :: (h.parameters.chars Named.chars ++ ')' :: (h.behindList.chars ++ '{' :: r))) :=
    h.beforeList.stops_isNamePart (stops_cons.2 (by decide))
  rw [head_append]
  refine bind_of (typeName_append h.result (h.gap.stops_isNamePart _)) ?_
  refine bind_of (spaces1_append h.gap (stops_isSpace_form form h.name _)) ?_
  refine bind_of (functionName_append form h.name hlist) ?_
  refine bind_of (spaces_append h.beforeList (stops_cons.2 (by decide))) ?_
  refine bind_of (parenthesized_append readsParameters_argument h.parameters _) ?_
  refine bind_of (spaces_append h.behindList (stops_cons.2 (by decide))) ?_
  exact bind_of (char_cons _ _) rfl

/-- **Every head with a plain name that ends in a semicolon is read as the prototype that it
writes.** -/
theorem prototype_append (h : Head (Option Named)) (r : List Char) :
    prototype (h.chars optionalChars .plain ++ ';' :: r) = some (h.prototype, r) := by
  have hlist : Stops isNamePart (h.beforeList.chars ++
      '(' :: (h.parameters.chars optionalChars ++ ')' :: (h.behindList.chars ++ ';' :: r))) :=
    h.beforeList.stops_isNamePart (stops_cons.2 (by decide))
  rw [head_append]
  refine bind_of (typeName_append h.result (h.gap.stops_isNamePart _)) ?_
  refine bind_of (spaces1_append h.gap (stops_isSpace_form .plain h.name _)) ?_
  refine bind_of (name_append h.name hlist) ?_
  refine bind_of (spaces_append h.beforeList (stops_cons.2 (by decide))) ?_
  refine bind_of (parenthesized_append readsParameters_argumentType h.parameters _) ?_
  refine bind_of (spaces_append h.behindList (stops_cons.2 (by decide))) ?_
  exact bind_of (char_cons _ _) rfl

/-! ### What has been read -/

theorem exists_of_argument {a : Argument} (h : argument s = some (a, r)) :
    ∃ p : Parameter Named, Head.argument p = a ∧ s = p.chars Named.chars ++ r := by
  obtain ⟨type, t, htype, h⟩ := bind_eq_some_iff.1 h
  obtain ⟨⟨⟩, u, hgap, h⟩ := bind_eq_some_iff.1 h
  obtain ⟨n, v, hname, hend⟩ := bind_eq_some_iff.1 h
  cases hend
  obtain ⟨type, rfl, rfl⟩ := typeName_eq_some htype
  obtain ⟨⟨gap, rfl⟩, -⟩ := spaces1_eq_some hgap
  obtain ⟨w, rfl, rfl⟩ := name_eq_some hname
  exact ⟨⟨type, gap, w⟩, rfl, by simp [Parameter.chars, Named.chars]⟩

theorem exists_of_comma (h : comma s = some ((), r)) :
    ∃ b b' : Blanks, s = b.chars ++ ',' :: (b'.chars ++ r) := by
  obtain ⟨⟨⟩, t, hb, h⟩ := bind_eq_some_iff.1 h
  obtain ⟨⟨⟩, u, hcomma, hb'⟩ := bind_eq_some_iff.1 h
  obtain ⟨⟨b, rfl⟩, -⟩ := spaces_eq_some hb
  obtain ⟨⟨b', rfl⟩, -⟩ := spaces_eq_some hb'
  exact ⟨b, b', by rw [char_eq_some hcomma]⟩

section Sound

variable (hitem : ∀ s a r, item s = some (a, r) →
  ∃ p : Parameter ν, value p = a ∧ s = p.chars behind ++ r)
include hitem

theorem exists_of_commaItem (h : (comma *> item : Scan α) s = some (a, r)) :
    ∃ (b b' : Blanks) (p : Parameter ν), value p = a ∧
      s = b.chars ++ ',' :: (b'.chars ++ (p.chars behind ++ r)) := by
  obtain ⟨⟨⟩, t, hcomma, hread⟩ := seqRight_eq_some_iff.1 h
  obtain ⟨b, b', rfl⟩ := exists_of_comma hcomma
  obtain ⟨p, rfl, rfl⟩ := hitem t a r hread
  exact ⟨b, b', p, rfl, rfl⟩

/-- The items that have been read after the first one were written behind commas. -/
theorem exists_of_moreItems (s : List Char) :
    ∃ more : More ν, (more.map fun m => value m.2.2) = (moreItems item s).1 ∧
      s = More.chars behind more ++ (moreItems item s).2 := by
  induction s using moreItems.induct item with
  | case1 s hnone =>
    rw [moreItems, hnone]
    exact ⟨[], rfl, rfl⟩
  | case2 s a r hsome hlt rest t hpair ih =>
    obtain ⟨b, b', p, rfl, rfl⟩ := exists_of_commaItem hitem hsome
    obtain ⟨more, hmap, htext⟩ := ih
    rw [moreItems, hsome]
    dsimp only
    rw [if_pos hlt]
    refine ⟨(b, b', p) :: more, congrArg _ hmap, ?_⟩
    simpa [More.chars] using htext
  | case3 s a r hsome hlt =>
    obtain ⟨b, b', p, rfl, rfl⟩ := exists_of_commaItem hitem hsome
    rw [moreItems, hsome]
    dsimp only
    rw [if_neg hlt]
    exact ⟨[(b, b', p)], rfl, by simp [More.chars]⟩

theorem exists_of_parenthesized {l : List α} (h : parenthesized item s = some (l, r)) :
    ∃ ps : Parameters ν, ps.toList.map value = l ∧ s = '(' :: (ps.chars behind ++ ')' :: r) := by
  obtain ⟨⟨⟩, t, hopen, h⟩ := bind_eq_some_iff.1 h
  obtain ⟨⟨⟩, u, hbefore, h⟩ := bind_eq_some_iff.1 h
  obtain ⟨found, v, hfound, h⟩ := bind_eq_some_iff.1 h
  obtain ⟨⟨⟩, x, hbehind, h⟩ := bind_eq_some_iff.1 h
  obtain ⟨⟨⟩, y, hclose, hend⟩ := bind_eq_some_iff.1 h
  cases hend
  obtain ⟨⟨b, rfl⟩, -⟩ := spaces_eq_some hbefore
  obtain ⟨⟨b', rfl⟩, -⟩ := spaces_eq_some hbehind
  rw [char_eq_some hopen, char_eq_some hclose] at *
  obtain hvoid | ⟨hnotVoid, hitems⟩ := orElse_eq_some hfound
  · obtain ⟨⟨⟩, z, htext, hend⟩ := seqRight_eq_some_iff.1 hvoid
    cases hend
    rw [text_eq_some htext]
    exact ⟨.void b b', rfl, by simp [Parameters.chars]⟩
  · obtain hsome | ⟨-, hnone⟩ := orElse_eq_some hitems
    · obtain ⟨a, z, hfirst, hrest⟩ := bind_eq_some_iff.1 hsome
      obtain ⟨first, rfl, rfl⟩ := hitem u a z hfirst
      obtain ⟨more, hmap, htext⟩ := exists_of_moreItems hitem z
      obtain ⟨as, z', hmore, hend⟩ := bind_eq_some_iff.1 hrest
      cases hend
      rw [Option.some.inj hmore] at hmap htext
      -- a first parameter of type `void` would have been taken for the word
      have hne : first.type.text ≠ voidType := by
        intro hvoid
        rw [Parameter.chars, hvoid, List.append_assoc] at hnotVoid
        have hsome : (text voidType.toList *> pure [] : Scan (List α)) (voidType.toList ++
            (behind first.behind ++ z)) = some ([], behind first.behind ++ z) :=
          seqRight_of (text_append _ _) (run_pure _ _)
        rw [hnotVoid] at hsome
        cases hsome
      refine ⟨.list b first hne more b', ?_, ?_⟩
      · rw [Parameters.toList, List.map_cons, List.map_map]
        exact congrArg _ hmap
      · rw [htext]
        simp [Parameters.chars]
    · cases hnone
      have hspaces : ∀ c ∈ b.chars ++ b'.chars, isSpace c = true := fun c hc =>
        (List.mem_append.1 hc).elim (b.isSpace_of_mem c) (b'.isSpace_of_mem c)
      exact ⟨.empty ⟨b.chars ++ b'.chars, hspaces⟩, rfl, by simp [Parameters.chars]⟩

end Sound

/-- **What has been read as a signature was a head that ends in a brace.** -/
theorem exists_of_signature {found : Signature} (h : signature s = some (found, r)) :
    ∃ (form : NameForm) (head : Head Named), head.signature form = found ∧
      s = head.chars Named.chars form ++ '{' :: r := by
  obtain ⟨type, t, hresult, h⟩ := bind_eq_some_iff.1 h
  obtain ⟨⟨⟩, u, hgap, h⟩ := bind_eq_some_iff.1 h
  obtain ⟨⟨n, anonymous⟩, v, hname, h⟩ := bind_eq_some_iff.1 h
  obtain ⟨⟨⟩, x, hbefore, h⟩ := bind_eq_some_iff.1 h
  obtain ⟨arguments, y, hlist, h⟩ := bind_eq_some_iff.1 h
  obtain ⟨⟨⟩, z, hbehind, h⟩ := bind_eq_some_iff.1 h
  obtain ⟨⟨⟩, z', hbrace, hend⟩ := bind_eq_some_iff.1 h
  cases hend
  obtain ⟨result, rfl, rfl⟩ := typeName_eq_some hresult
  obtain ⟨⟨gap, rfl⟩, -⟩ := spaces1_eq_some hgap
  obtain ⟨w, form, rfl, rfl, rfl⟩ := exists_of_functionName hname
  obtain ⟨⟨b, rfl⟩, -⟩ := spaces_eq_some hbefore
  obtain ⟨ps, rfl, rfl⟩ := exists_of_parenthesized (fun _ _ _ => exists_of_argument) hlist
  obtain ⟨⟨b', rfl⟩, -⟩ := spaces_eq_some hbehind
  refine ⟨form, ⟨result, gap, w, b, ps, b'⟩, rfl, ?_⟩
  rw [head_append, char_eq_some hbrace]

/-- **A signature is read from the heads that end in a brace, and from nothing else.** -/
theorem signature_eq_some_iff {found : Signature} :
    signature s = some (found, r) ↔ ∃ (form : NameForm) (head : Head Named),
      head.signature form = found ∧ s = head.chars Named.chars form ++ '{' :: r := by
  refine ⟨exists_of_signature, ?_⟩
  rintro ⟨form, head, rfl, rfl⟩
  exact signature_append form head r

end Scan

/-- A head does not begin with a separating character. -/
theorem Head.stops_isSpace (behind : ν → List Char) (form : NameForm) (h : Head ν)
    (r : List Char) : Stops isSpace (h.chars behind form ++ r) := by
  rw [Scan.head_append]
  exact h.result.word.stops_isSpace _

/-- A head is read wherever separating characters stand in front of it. -/
theorem Head.scan?_signature (b : Blanks) (form : NameForm) (h : Head Named) (r : List Char) :
    scan? Scan.signature (b.chars ++ (h.chars Named.chars form ++ '{' :: r)) =
      some (h.signature form) :=
  scan?_append b (h.stops_isSpace _ form _) (Scan.signature_append form h r)

end ShaderLink.Glsl
