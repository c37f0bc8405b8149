import Mathlib.Data.List.Basic
import ShaderLink.Proofs.Glsl.Head
import ShaderLink.Proofs.Text.Lines

/-!
# Lines that start a signature

A text starts a signature if it begins with a head and a brace, separating characters skipped
(`StartsSignature`). The signatures of code are looked for at the start of every line, and most
lines start none.

A line of a head starts with what is left of the head, which is never a head itself (`Head.silent`).
Whether a line in braces starts a signature does not depend on what comes behind the closing brace,
unless that is a list in parentheses: the only closing brace in a head is the one behind a name, and
the list comes next (`StartsSignature.of_brace`).
-/

namespace ShaderLink

namespace Glsl

variable {r s t : List Char} {c : Char}

/-! ### Texts that start no signature -/

/-- Whether a text starts with a signature, separating characters skipped. -/
def StartsSignature (s : List Char) : Prop :=
  ∃ (b : Blanks) (form : NameForm) (head : Head Named) (rest : List Char),
    s = b.chars ++ (head.chars Named.chars form ++ '{' :: rest)

theorem startsSignature_iff : StartsSignature s ↔ (scan? Scan.signature s).isSome = true := by
  constructor
  · rintro ⟨b, form, head, rest, rfl⟩
    rw [head.scan?_signature, Option.isSome_some]
  · intro h
    obtain ⟨found, hfound⟩ := Option.isSome_iff_exists.1 h
    obtain ⟨⟨found, rest⟩, hread, rfl⟩ := Option.map_eq_some_iff.1 hfound
    obtain ⟨⟨⟩, t, hspaces, hsignature⟩ := Scan.seqRight_eq_some_iff.1 hread
    obtain ⟨⟨b, rfl⟩, -⟩ := Scan.spaces_eq_some hspaces
    obtain ⟨form, head, -, rfl⟩ := Scan.signature_eq_some_iff.1 hsignature
    exact ⟨b, form, head, rest, rfl⟩

instance : DecidablePred StartsSignature := fun _ => decidable_of_iff _ startsSignature_iff.symm

theorem scan?_eq_none_of_not (h : ¬ StartsSignature s) : scan? Scan.signature s = none := by
  rwa [startsSignature_iff, Option.not_isSome_iff_eq_none] at h

/-- A signature starts with a name. -/
theorem scan?_signature_cons (hspace : isSpace c = false) (hstart : isNameStart c = false)
    (s : List Char) : scan? Scan.signature (c :: s) = none :=
  scan?_eq_none (stops_cons.2 hspace)
    (Scan.bind_eq_none (Scan.typeName_eq_none (stops_cons.2 hstart)))

/-- The characters that follow names in a list, and the one in front of it. -/
theorem punctuation (hc : c ∈ ['(', ',', ')']) :
    isSpace c = false ∧ isNamePart c = false ∧ isNameStart c = false ∧ c ≠ '$' := by
  obtain rfl | rfl | rfl : c = '(' ∨ c = ',' ∨ c = ')' := by simpa using hc
  all_goals decide

/-- A name starts no signature if a comma or a parenthesis comes next. -/
theorem scan?_signature_word (w : Word) (b : Blanks) (hc : c ∈ ['(', ',', ')']) (r : List Char) :
    scan? Scan.signature (w.text.toList ++ (b.chars ++ c :: r)) = none := by
  obtain ⟨hspace, hpart, hstart, hdollar⟩ := punctuation hc
  have hend : Stops isNamePart (b.chars ++ c :: r) := b.stops_isNamePart (stops_cons.2 hpart)
  refine scan?_eq_none (w.stops_isSpace _) ?_
  by_cases htype : isType w.text = true
  · -- the name is that of a type, and no name follows it
    refine Scan.bind_eq_none_of (Scan.typeName_append ⟨w.text, htype⟩ hend) ?_
    obtain hnone | hread := Scan.spaces1_blanks b (stops_cons.2 hspace : Stops isSpace (c :: r))
    · exact Scan.bind_eq_none hnone
    · refine Scan.bind_eq_none_of hread (Scan.bind_eq_none ?_)
      exact Scan.functionName_eq_none (stops_cons.2 hstart) (by simpa using hdollar)
  · exact Scan.bind_eq_none (Scan.typeName_eq_none_of_not_isType w hend htype)

/-- No signature starts with a parameter. -/
theorem scan?_signature_parameter (p : Parameter Named) (hr : Scan.Closes r) :
    scan? Scan.signature (p.chars Named.chars ++ r) = none := by
  obtain ⟨b, c, s, hc, rfl⟩ := hr
  have hmem : c ∈ ['(', ',', ')'] := List.mem_cons_of_mem _ (by simpa using hc)
  obtain ⟨hspace, hpart, -⟩ := punctuation hmem
  have hopen : c ≠ '(' := by rintro rfl; exact absurd hc (by decide)
  have htext : p.chars Named.chars ++ (b.chars ++ c :: s) = p.type.text.toList ++
      (p.behind.gap.chars ++ (p.behind.name.text.toList ++ (b.chars ++ c :: s))) := by
    simp [Parameter.chars, Named.chars]
  rw [htext]
  refine scan?_eq_none (p.type.word.stops_isSpace _) ?_
  refine Scan.bind_eq_none_of (Scan.typeName_append p.type (p.behind.gap.stops_isNamePart _)) ?_
  refine Scan.bind_eq_none_of (Scan.spaces1_append _ (p.behind.name.stops_isSpace _)) ?_
  -- the name of the parameter is taken for that of a function, but no list follows it
  refine Scan.bind_eq_none_of (Scan.functionName_append .plain p.behind.name
    (b.stops_isNamePart (stops_cons.2 hpart))) ?_
  refine Scan.bind_eq_none_of (Scan.spaces_append b (stops_cons.2 hspace)) ?_
  exact Scan.bind_eq_none (Scan.bind_eq_none (Scan.char_eq_none (by simpa using hopen)))

/-! ### Lines of heads -/

/-- No line but the first one starts a signature, in a text that goes on with another one. -/
def Silent (s r : List Char) : Prop :=
  ∀ line ∈ Text.afterLineFeeds s, scan? Scan.signature (line ++ r) = none

theorem silent_of_notMem (h : '\n' ∉ s) : Silent s r := by
  rw [Silent, Text.afterLineFeeds_of_not_mem h]
  nofun

theorem Silent.append (hs : Silent s (t ++ r)) (ht : Silent t r) : Silent (s ++ t) r := by
  intro line hline
  rw [Text.afterLineFeeds_append] at hline
  obtain hline | hline := List.mem_append.1 hline
  · obtain ⟨line', hline', rfl⟩ := List.mem_map.1 hline
    rw [List.append_assoc]
    exact hs line' hline'
  · exact ht line hline

theorem Silent.cons (hc : c ≠ '\n') (h : Silent s r) : Silent (c :: s) r :=
  Silent.append (s := [c]) (silent_of_notMem (by simpa using hc.symm)) h

theorem Word.silent (w : Word) (r : List Char) : Silent w.text.toList r :=
  silent_of_notMem (w.notMem (by decide))

/-- The lines of separating characters start with what follows these. -/
theorem Blanks.silent (b : Blanks) (h : scan? Scan.signature r = .none) : Silent b.chars r := by
  intro line hline
  have hspace : ∀ c ∈ line, isSpace c = true := fun c hc =>
    b.isSpace_of_mem c ((Text.suffix_of_mem_afterLineFeeds hline).subset hc)
  exact (scan?_blanks Scan.signature ⟨line, hspace⟩ r).trans h

theorem NameForm.silent (form : NameForm) (w : Word) (r : List Char) : Silent (form.chars w) r := by
  cases form with
  | plain => exact w.silent r
  | dollar => exact (w.silent r).cons (by decide)
  | braced =>
    refine Silent.cons (by decide) (Silent.cons (by decide) ?_)
    exact (w.silent _).append (silent_of_notMem (by decide))

theorem Parameter.silent (p : Parameter Named) (hr : Scan.Closes r) :
    Silent (p.chars Named.chars) r := by
  obtain ⟨b, c, s, hc, rfl⟩ := hr
  have hmem : c ∈ ['(', ',', ')'] := List.mem_cons_of_mem _ (by simpa using hc)
  refine (p.type.word.silent _).append (Silent.append ?_ (p.behind.name.silent _))
  exact p.behind.gap.silent (scan?_signature_word p.behind.name b hmem s)

theorem More.silent (more : More Named) (b : Blanks) (s : List Char) :
    Silent (More.chars Named.chars more) (b.chars ++ ')' :: s) := by
  induction more with
  | nil => exact silent_of_notMem List.not_mem_nil
  | cons m more ih =>
    obtain ⟨b', b'', p⟩ := m
    have hr := Scan.closes_more Named.chars more b s
    have hp : Silent (p.chars Named.chars ++ More.chars Named.chars more) (b.chars ++ ')' :: s) :=
      (p.silent hr).append ih
    have hstart : scan? Scan.signature ((p.chars Named.chars ++ More.chars Named.chars more) ++
        (b.chars ++ ')' :: s)) = none := by
      rw [List.append_assoc]
      exact scan?_signature_parameter p hr
    refine (b'.silent ?_).append (Silent.cons (by decide) ((b''.silent hstart).append hp))
    exact scan?_signature_cons (by decide) (by decide) _

theorem Parameters.silent (ps : Parameters Named) (s : List Char) :
    Silent (ps.chars Named.chars) (')' :: s) := by
  have hclose : scan? Scan.signature (')' :: s) = none :=
    scan?_signature_cons (by decide) (by decide) s
  cases ps with
  | empty inside => exact inside.silent hclose
  | void b b' =>
    have hvoid : scan? Scan.signature (voidType.toList ++ (b'.chars ++ ')' :: s)) = none :=
      scan?_signature_word ⟨voidType, by decide +kernel⟩ b' (c := ')') (by decide) s
    refine Silent.append ?_ ((silent_of_notMem (by decide)).append (b'.silent hclose))
    rw [List.append_assoc]
    exact b.silent hvoid
  | list b first ne_void more b' =>
    have hr := Scan.closes_more Named.chars more b' s
    refine Silent.append ?_ (Silent.append ?_ ((More.silent more b' s).append (b'.silent hclose)))
    · rw [List.append_assoc, List.append_assoc]
      exact b.silent (scan?_signature_parameter first hr)
    · rw [List.append_assoc]
      exact first.silent hr

/-- **No line of a head starts a signature**, apart from the first one. -/
theorem Head.silent (form : NameForm) (h : Head Named) (s : List Char) :
    Silent (h.chars Named.chars form) ('{' :: s) := by
  have hbehind : Silent h.behindList.chars ('{' :: s) :=
    h.behindList.silent (scan?_signature_cons (by decide) (by decide) s)
  have hlist : Silent ('(' :: (h.parameters.chars Named.chars ++ ')' :: h.behindList.chars))
      ('{' :: s) :=
    Silent.cons (by decide) ((h.parameters.silent _).append (Silent.cons (by decide) hbehind))
  have hbefore : Silent (h.beforeList.chars ++
      '(' :: (h.parameters.chars Named.chars ++ ')' :: h.behindList.chars)) ('{' :: s) :=
    (h.beforeList.silent (scan?_signature_cons (by decide) (by decide) _)).append hlist
  have hname : Silent (form.chars h.name ++ (h.beforeList.chars ++
      '(' :: (h.parameters.chars Named.chars ++ ')' :: h.behindList.chars))) ('{' :: s) :=
    (form.silent h.name _).append hbefore
  -- a line may also start between the result and the name
  have hstart : scan? Scan.signature ((form.chars h.name ++ (h.beforeList.chars ++
      '(' :: (h.parameters.chars Named.chars ++ ')' :: h.behindList.chars))) ++ '{' :: s) =
        none := by
    cases form with
    | plain =>
      rw [List.append_assoc, List.append_assoc]
      exact scan?_signature_word h.name h.beforeList (by decide) _
    | dollar | braced => exact scan?_signature_cons (by decide) (by decide) _
  exact (h.result.word.silent _).append ((h.gap.silent hstart).append hname)

/-! ### Lines of bodies -/

theorem brace_notMem_blanks (b : Blanks) : '}' ∉ b.chars := b.notMem (by decide)

theorem brace_notMem_word (w : Word) : '}' ∉ w.text.toList := w.notMem (by decide)

theorem brace_notMem_type (t : TypeWord) : '}' ∉ t.text.toList := brace_notMem_word t.word

theorem brace_notMem_parameter (p : Parameter Named) : '}' ∉ p.chars Named.chars := by
  simp [Parameter.chars, Named.chars, brace_notMem_type, brace_notMem_blanks, brace_notMem_word]

theorem brace_notMem_more (more : More Named) : '}' ∉ More.chars Named.chars more := by
  induction more with
  | nil => exact List.not_mem_nil
  | cons m more ih => simp [More.chars, brace_notMem_blanks, brace_notMem_parameter, ih]

theorem brace_notMem_parameters (ps : Parameters Named) : '}' ∉ ps.chars Named.chars := by
  cases ps with
  | empty inside => exact brace_notMem_blanks inside
  | void b b' =>
    have hvoid : '}' ∉ voidType.toList := by decide
    simp [Parameters.chars, brace_notMem_blanks, hvoid]
  | list b first ne_void more b' =>
    simp [Parameters.chars, brace_notMem_blanks, brace_notMem_parameter, brace_notMem_more]

/-- A text that goes on with a list in parentheses, separating characters skipped. -/
def OpensList (r : List Char) : Prop :=
  ∃ (b : Blanks) (s : List Char), r = b.chars ++ '(' :: s

/-- **Behind the only closing brace of a head comes its list.** -/
theorem Head.opensList_of_brace (b : Blanks) (form : NameForm) (h : Head Named)
    (heq : b.chars ++ h.chars Named.chars form = s ++ '}' :: t) : OpensList t := by
  -- a closing brace stands behind the name of a function and nowhere else
  have hmem : '}' ∈ b.chars ++ h.chars Named.chars form := by simp [heq]
  cases form with
  | plain | dollar =>
    simp [Head.chars, NameForm.chars, brace_notMem_blanks, brace_notMem_type, brace_notMem_word,
      brace_notMem_parameters] at hmem
  | braced =>
    let front := b.chars ++ (h.result.text.toList ++ (h.gap.chars ++ '$' :: '{' ::
      h.name.text.toList))
    let back := h.beforeList.chars ++
      '(' :: (h.parameters.chars Named.chars ++ ')' :: h.behindList.chars)
    have hfront : '}' ∉ front := by
      simp [front, brace_notMem_blanks, brace_notMem_type, brace_notMem_word]
    have hback : '}' ∉ back := by simp [back, brace_notMem_blanks, brace_notMem_parameters]
    have hsplit : front ++ '}' :: back = s ++ '}' :: t := by
      rw [← heq]
      simp [front, back, Head.chars, NameForm.chars]
    obtain ⟨-, -, rfl⟩ := (List.append_cons_inj_of_notMem hfront hback).1 hsplit
    exact ⟨h.beforeList, _, rfl⟩

/-- **What comes behind a closing brace does not make a signature**, unless it is a list. -/
theorem StartsSignature.of_brace (hr : ¬ OpensList r) (h : StartsSignature (s ++ '}' :: r)) :
    StartsSignature (s ++ ['}']) := by
  obtain ⟨b, form, head, rest, heq⟩ := h
  rw [← List.append_assoc] at heq
  obtain ⟨t, hhead, hbrace⟩ | ⟨t, hline, hbrace⟩ := List.append_eq_append_iff.1 heq
  · -- the head would go on behind the brace
    cases t with
    | nil => cases hbrace
    | cons c t =>
      obtain ⟨rfl, rfl⟩ := List.cons.inj hbrace
      obtain ⟨b', u, hlist⟩ := head.opensList_of_brace b form hhead
      exact absurd ⟨b', u ++ '{' :: rest, by simp [hlist]⟩ hr
  · cases t with
    | nil => cases hbrace
    | cons c t =>
      obtain ⟨rfl, rfl⟩ := List.cons.inj hbrace
      exact ⟨b, form, head, t ++ ['}'], by simp [hline]⟩

end Glsl

end ShaderLink
