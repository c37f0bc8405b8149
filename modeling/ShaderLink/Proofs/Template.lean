import Mathlib.Data.List.Chain
import ShaderLink.Proofs.Glsl.Head
import ShaderLink.Proofs.Outcome
import ShaderLink.Template

/-!
# Writing templates

A template is **written** piece by piece: the dollar signs of a text are doubled, and the name of a
placeholder stands in braces behind a dollar sign (`Template.write`). It is **normal** if it has no
empty text, never two texts in a row, and names for its placeholders (`Template.Normal`).

A normal template is read back from what is written (`Template.parse_write`). Reading goes character
by character here: whatever follows, a character that is not a dollar sign joins the text that comes
behind it (`Template.ofChars_cons_of_ne`), so a run of text may be taken apart anywhere.

Substitution asks for the names of a template from left to right (`Template.names`) and puts the
answers between its texts (`Template.fill`). If a resolver fails, so does the substitution, with the
error of the first name that it fails for.
-/

namespace ShaderLink

/-- Whether a piece is a run of text. -/
def Piece.isText : Piece → Bool
  | text _ => true
  | placeholder _ => false

/-- A character of a text as it is written. -/
def escape (c : Char) : List Char := if c = '$' then ['$', '$'] else [c]

/-- A piece as it is written. -/
def Piece.chars : Piece → List Char
  | text run => run.toList.flatMap escape
  | placeholder name => '$' :: '{' :: (name.toList ++ ['}'])

namespace Template

/-- A template as it is written. -/
def write (t : Template) : String := String.ofList (t.flatMap Piece.chars)

/-- **Normal templates**: those whose pieces can be told apart when they are written. -/
structure Normal (t : Template) : Prop where
  text_ne_empty : ∀ run, .text run ∈ t → run ≠ ""
  apart : t.IsChain fun p q => (p.isText && q.isText) = false
  isName : ∀ name, .placeholder name ∈ t → Glsl.isName name.toList = true

/-- The names of the placeholders, once for each time they appear. -/
def names : Template → List String
  | [] => []
  | .text _ :: t => names t
  | .placeholder name :: t => name :: names t

/-- The parts of the text of a template, its placeholders taken from a list of answers. -/
def fill : Template → List String → List String
  | .text run :: t, answers => run :: fill t answers
  | .placeholder _ :: t, answer :: answers => answer :: fill t answers
  | _, _ => []

/-! ### Reading what was written -/

section Reading

variable {c : Char} {s : List Char}

/-- A run of text joins the text behind it. -/
theorem push_text_push (a b : String) (t : Template) :
    push (.text a) (push (.text b) t) = push (.text (a ++ b)) t := by
  cases t with
  | nil => rfl
  | cons p t =>
    cases p with
    | text run => simp [push, String.append_assoc]
    | placeholder name => rfl

theorem ofChars_cons (h : (next c s).2.length ≤ s.length) :
    ofChars (c :: s) = push (next c s).1 (ofChars (next c s).2) := by
  rw [ofChars]
  show push (next c s).1 (if (next c s).2.length ≤ s.length then ofChars (next c s).2 else []) = _
  rw [if_pos h]

theorem ofChars_dollars (s : List Char) :
    ofChars ('$' :: '$' :: s) = push (.text "$") (ofChars s) := by
  have hnext : next '$' ('$' :: s) = (.text "$", s) := by rw [next]
  rw [ofChars_cons (by simp [hnext]), hnext]

theorem next_of_ne (hc : c ≠ '$') (s : List Char) : next c s =
    (.text (String.ofList (c :: s.takeWhile (· ≠ '$'))), s.dropWhile (· ≠ '$')) := by
  unfold next
  split
  · exact absurd rfl hc
  · exact absurd rfl hc
  · rfl

/-- **A character other than a dollar sign joins whatever text comes behind it.** -/
theorem ofChars_cons_of_ne (hc : c ≠ '$') (s : List Char) :
    ofChars (c :: s) = push (.text (String.ofList [c])) (ofChars s) := by
  have hle : ∀ u : List Char, (u.dropWhile (· ≠ '$')).length ≤ u.length :=
    fun u => (List.dropWhile_suffix _).length_le
  rw [ofChars_cons (by rw [next_of_ne hc]; exact hle s), next_of_ne hc]
  cases s with
  | nil => rfl
  | cons d s =>
    by_cases hd : d = '$'
    · simp [hd]
    · rw [ofChars_cons (by rw [next_of_ne hd]; exact hle s), next_of_ne hd, push_text_push]
      simp [hd]

theorem ofChars_placeholder (w : Glsl.Word) (s : List Char) :
    ofChars ('$' :: '{' :: (w.text.toList ++ '}' :: s)) = .placeholder w.text :: ofChars s := by
  have hnext : next '$' ('{' :: (w.text.toList ++ '}' :: s)) = (.placeholder w.text, s) := by
    rw [next, Glsl.Scan.placeholder_braced]
    rintro u ⟨⟩
  rw [ofChars_cons (by rw [hnext]; simp; omega), hnext]
  rfl

/-- The first character of a text, as it is written, joins whatever text comes behind it. -/
theorem ofChars_escape (c : Char) (s : List Char) :
    ofChars (escape c ++ s) = push (.text (String.ofList [c])) (ofChars s) := by
  by_cases hc : c = '$'
  · subst hc
    exact ofChars_dollars s
  · rw [escape, if_neg hc]
    exact ofChars_cons_of_ne hc s

/-- A text is read as a whole, whatever follows it. -/
theorem ofChars_text {u : List Char} (h : u ≠ []) (s : List Char) :
    ofChars (u.flatMap escape ++ s) = push (.text (String.ofList u)) (ofChars s) := by
  induction u with
  | nil => exact absurd rfl h
  | cons c u ih =>
    rw [List.flatMap_cons, List.append_assoc, ofChars_escape]
    by_cases hu : u = []
    · subst hu
      rfl
    · rw [ih hu, push_text_push, ← String.ofList_append, List.singleton_append]

theorem push_of_apart {p : Piece} {t : Template}
    (h : (p :: t).IsChain fun p q => (p.isText && q.isText) = false) : push p t = p :: t := by
  cases t with
  | nil => cases p <;> rfl
  | cons q t =>
    have hpq := (List.isChain_cons_cons.1 h).1
    cases p <;> cases q <;> first | rfl | cases hpq

/-- **A normal template is read from what it is written as.** -/
theorem ofChars_write {t : Template} (h : t.Normal) : ofChars (t.flatMap Piece.chars) = t := by
  induction t with
  | nil => rw [List.flatMap_nil, ofChars]
  | cons p t ih =>
    have htail : ofChars (t.flatMap Piece.chars) = t := ih
      { text_ne_empty := fun run hrun => h.text_ne_empty run (List.mem_cons_of_mem p hrun)
        apart := h.apart.tail
        isName := fun name hname => h.isName name (List.mem_cons_of_mem p hname) }
    rw [List.flatMap_cons]
    cases p with
    | text run =>
      have hne : run.toList ≠ [] := fun hnil =>
        h.text_ne_empty run List.mem_cons_self (String.toList_eq_nil_iff.1 hnil)
      rw [Piece.chars, ofChars_text hne, htail, String.ofList_toList]
      exact push_of_apart h.apart
    | placeholder name =>
      have hread := ofChars_placeholder ⟨name, h.isName name List.mem_cons_self⟩
        (t.flatMap Piece.chars)
      rw [htail] at hread
      simpa [Piece.chars] using hread

end Reading

/-! ### Substitution -/

section Substitution

variable {m : Type → Type} [Monad m] [LawfulMonad m]

/-- **A resolver is asked for the names of a template, in order, and the answers are put between the
texts.** -/
theorem substituteM_eq (t : Template) (resolve : String → m String) :
    t.substituteM resolve =
      (fun answers => String.join (t.fill answers)) <$> t.names.mapM resolve := by
  have hparts : (t.mapM fun
      | .text run => pure run
      | .placeholder name => resolve name) = t.fill <$> t.names.mapM resolve := by
    induction t with
    | nil => simp [names, fill]
    | cons p t ih =>
      cases p with
      | text run => simp [List.mapM_cons, names, ih, fill]
      | placeholder name => simp [List.mapM_cons, names, ih, fill]
  refine (congrArg (· >>= fun parts => pure (String.join parts)) hparts).trans ?_
  simp

end Substitution

/-- With an answer for each name, every placeholder is filled with the answer for its own name. -/
theorem fill_map (t : Template) (value : String → String) :
    t.fill (t.names.map value) = t.map fun
      | .text run => run
      | .placeholder name => value name := by
  induction t with
  | nil => rfl
  | cons p t ih =>
    cases p with
    | text run => simp [names, fill, ih]
    | placeholder name => simp [names, fill, ih]

/-- **A template is read back from what it is written as, and substituted part by part.**

What is written for a normal template is read as this template. A resolver, whatever it may do
besides answering, is asked for the names of its placeholders in order, and its answers are put
between the texts. So if a resolver has a value for every name, the substitution is made of texts
and values in order; and the substitution fails with an error just if the resolver fails with this
error for some name and for none before it. -/
theorem parse_write (t : Template) (h : t.Normal) :
    parse t.write = t ∧
      (∀ {m : Type → Type} [Monad m] [LawfulMonad m] (resolve : String → m String),
        (parse t.write).substituteM resolve =
          (fun answers => String.join (t.fill answers)) <$> t.names.mapM resolve) ∧
      (∀ {ε : Type} (resolve : String → Except ε String) (value : String → String),
        (∀ name ∈ t.names, resolve name = .ok (value name)) →
          (parse t.write).substitute resolve = .ok (String.join (t.map fun
            | .text run => run
            | .placeholder name => value name))) ∧
      ∀ {ε : Type} (resolve : String → Except ε String) (e : ε),
        (parse t.write).substitute resolve = .error e ↔
          ∃ before name after, t.names = before ++ name :: after ∧
            (∀ n ∈ before, ∃ v, resolve n = .ok v) ∧ resolve name = .error e := by
  have hparse : parse t.write = t := by
    rw [parse, write, String.toList_ofList]
    exact ofChars_write h
  rw [hparse]
  refine ⟨rfl, substituteM_eq t, ?_, ?_⟩
  · intro ε resolve value hvalue
    have hanswers : t.names.mapM resolve = .ok (t.names.map value) := mapM_eq_ok_map hvalue
    rw [substitute, substituteM_eq, hanswers, ← fill_map]
    rfl
  · intro ε resolve e
    rw [substitute, substituteM_eq, ← mapM_eq_error_iff]
    cases t.names.mapM resolve <;> simp

/-- A template with dollar signs before a placeholder and inside of braces. -/
def priceTemplate : Template :=
  [.text "cost: $", .placeholder "x", .text "\x7b$y\x7d", .placeholder "y"]

theorem normal_priceTemplate : priceTemplate.Normal where
  text_ne_empty run hrun := by
    have hruns : run = "cost: $" ∨ run = "\x7b$y\x7d" := by simpa [priceTemplate] using hrun
    rintro rfl
    exact hruns.elim (by decide) (by decide)
  apart := by simp [priceTemplate, Piece.isText]
  isName name hname := by
    have hnames : name = "x" ∨ name = "y" := by simpa [priceTemplate] using hname
    obtain rfl | rfl := hnames <;> decide +kernel

/-- A resolver that counts the names it is asked for. -/
def countNames (_ : String) : StateM Nat String := do
  let n ← get
  set (n + 1)
  return toString n

/-- A resolver that knows the name `x` only. -/
def knowsOne (name : String) : Except String String :=
  if name = "x" then .ok "5" else .error name

/-- **The doubled dollar sign before the placeholder belongs to the text**, and what the doubled one
in braces precedes is no placeholder. -/
theorem parse_write_price :
    priceTemplate.Normal ∧
      parse "cost: $$$\x7bx\x7d\x7b$$y\x7d$\x7by\x7d" = priceTemplate ∧
      Id.run (((parse "cost: $$$\x7bx\x7d\x7b$$y\x7d$\x7by\x7d").substituteM countNames).run 7) =
        ("cost: $7\x7b$y\x7d8", 9) ∧
      (parse "cost: $$$\x7bx\x7d\x7b$$y\x7d$\x7by\x7d").substitute knowsOne = .error "y" := by
  have hwrite : priceTemplate.write = "cost: $$$\x7bx\x7d\x7b$$y\x7d$\x7by\x7d" := by
    decide +kernel
  obtain ⟨hparse, hsubstitute, -, herror⟩ := parse_write priceTemplate normal_priceTemplate
  rw [hwrite] at hparse hsubstitute herror
  refine ⟨normal_priceTemplate, hparse, ?_, ?_⟩
  · rw [hsubstitute countNames]
    decide +kernel
  · refine (herror knowsOne "y").2 ⟨["x"], "y", [], rfl, ?_, by decide +kernel⟩
    exact fun n hn => ⟨"5", by rw [List.mem_singleton.1 hn]; decide +kernel⟩

end Template

end ShaderLink
