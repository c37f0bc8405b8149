import ShaderLink.Proofs.Template

/-!
# Templates of texts that are put together

A text may be split at a closing brace that does not end a placeholder (`Template.EndsInside`): the
pieces of the whole are the pieces of both parts with the brace between them (`Template.ofChars_brace`),
and substitution goes through the parts one after the other (`Template.substitute_brace`).

The reason is that scans are **local** at a closing brace (`Glsl.Scan.Local`): what they read in front
of it, they read of that text alone, since no name goes on with a brace. Only a placeholder in braces
that lacks nothing but its closing one reads the brace along.
-/

namespace ShaderLink

namespace Glsl.Scan

variable {α β : Type} {x y : Scan α} {f : α → Scan β} {c : Char} {s r : List Char}

/-- A scan reads of a text that goes on what it reads of the text alone. -/
def Local (x : Scan α) (s r : List Char) : Prop :=
  x (s ++ r) = (x s).map fun found => (found.1, found.2 ++ r)

theorem local_pure (a : α) (s r : List Char) : Local (pure a) s r := rfl

theorem Local.bind (hx : Local x s r) (hf : ∀ a t, x s = some (a, t) → Local (f a) t r) :
    Local (x >>= f) s r := by
  unfold Local at hx ⊢
  rw [run_bind, run_bind, hx]
  cases hs : x s with
  | none => rfl
  | some found => exact hf found.1 found.2 hs

theorem Local.orElse (hx : Local x s r) (hy : Local y s r) : Local (x <|> y) s r := by
  unfold Local at hx hy ⊢
  rw [run_orElse, run_orElse, hx, hy]
  cases x s <;> rfl

/-- A character is read of the text itself, if it has one or what follows begins with another. -/
theorem local_char (h : s ≠ [] ∨ r.head? ≠ some c) : Local (char c) s r := by
  cases s with
  | nil => exact char_eq_none (h.resolve_left (· rfl))
  | cons d s =>
    unfold Local
    by_cases hd : d = c <;> simp [char, hd]

/-- A run of characters ends where a text begins that stops it, if not before. -/
theorem takeWhile_append_of_stops {p : Char → Bool} (hr : Stops p r) (s : List Char) :
    (s ++ r).takeWhile p = s.takeWhile p ∧ (s ++ r).dropWhile p = s.dropWhile p ++ r := by
  induction s with
  | nil => exact ⟨takeWhile_append (t := []) (by simp) hr, dropWhile_append (t := []) (by simp) hr⟩
  | cons c s ih =>
    by_cases hc : p c = true
    · rw [List.cons_append, List.takeWhile_cons_of_pos hc, List.takeWhile_cons_of_pos hc,
        List.dropWhile_cons_of_pos hc, List.dropWhile_cons_of_pos hc, ih.1]
      exact ⟨rfl, ih.2⟩
    · rw [List.cons_append, List.takeWhile_cons_of_neg hc, List.takeWhile_cons_of_neg hc,
        List.dropWhile_cons_of_neg hc, List.dropWhile_cons_of_neg hc]
      exact ⟨rfl, rfl⟩

/-- No name goes on with a text that stops names. -/
theorem local_name (hr : Stops isNamePart r) (s : List Char) : Local name s r := by
  cases s with
  | nil =>
    refine name_eq_none fun c hc => Bool.eq_false_iff.2 fun h => ?_
    have hpart := isNamePart_of_isNameStart h
    rw [hr c hc] at hpart
    cases hpart
  | cons c s =>
    obtain ⟨htake, hdrop⟩ := takeWhile_append_of_stops hr s
    unfold Local
    by_cases hc : isNameStart c = true <;> simp [name, hc, htake, hdrop]

theorem stops_brace (s : List Char) : Stops isNamePart ('}' :: s) := stops_cons.2 (by decide)

/-- **A placeholder is read in front of a closing brace as if nothing came behind it**, unless it
lacks nothing but that brace. -/
theorem local_placeholder (h : ¬ ∃ w : Word, s = '{' :: w.text.toList) (r : List Char) :
    Local placeholder ('$' :: s) ('}' :: r) := by
  refine (local_char (.inl (List.cons_ne_nil _ _))).bind fun _ t hdollar => ?_
  obtain rfl : s = t := (List.cons.inj (char_eq_some hdollar)).2
  refine Local.orElse ?_ (local_name (stops_brace r) s)
  refine (local_char (.inr (by simp))).bind fun _ t hopen => ?_
  refine (local_name (stops_brace r) t).bind fun n u hname => ?_
  obtain ⟨w, -, rfl⟩ := name_eq_some hname
  refine Local.bind (local_char (.inl ?_)) fun _ v _ => local_pure _ v _
  rintro rfl
  rw [List.append_nil] at hopen
  exact h ⟨w, char_eq_some hopen⟩

end Glsl.Scan

namespace Template

variable {ε : Type} {resolve : String → Except ε String} {c : Char} {s x y : List Char}

/-! ### Pieces -/

/-- A text that ends inside of a placeholder in braces. -/
def EndsInside (s : List Char) : Prop :=
  ∃ (x : List Char) (w : Glsl.Word), s = x ++ '$' :: '{' :: w.text.toList

theorem EndsInside.of_suffix (h : EndsInside s) (hs : s <:+ x) : EndsInside x := by
  obtain ⟨z, rfl⟩ := hs
  obtain ⟨y, w, rfl⟩ := h
  exact ⟨z ++ y, w, (List.append_assoc ..).symm⟩

/-- A dollar sign that is not doubled begins a placeholder. -/
theorem next_placeholder {n : String} {r : List Char} (hs : s.head? ≠ some '$')
    (h : Glsl.Scan.placeholder ('$' :: s) = some (n, r)) : next '$' s = (.placeholder n, r) := by
  rw [next.eq_2 s fun _ hu => hs (hu ▸ rfl), h]

/-- Where no placeholder begins, the dollar sign stays. -/
theorem next_dollar (hs : s.head? ≠ some '$') (h : Glsl.Scan.placeholder ('$' :: s) = none) :
    next '$' s = (.text "$", s) := by
  rw [next.eq_2 s fun _ hu => hs (hu ▸ rfl), h]

/-- Less is left than there was. -/
theorem next_suffix (c : Char) (s : List Char) : (next c s).2 <:+ s := by
  by_cases hc : c = '$'
  · subst hc
    by_cases hs : s.head? = some '$'
    · obtain ⟨u, rfl⟩ := List.head?_eq_some_iff.1 hs
      rw [next]
      exact List.suffix_cons _ _
    · cases hplaceholder : Glsl.Scan.placeholder ('$' :: s) with
      | none =>
        simp only [next_dollar hs hplaceholder, List.suffix_rfl]
      | some found =>
        obtain ⟨n, r⟩ := found
        rw [next_placeholder hs hplaceholder]
        obtain ⟨w, -, hw | hw⟩ := Glsl.Scan.exists_of_placeholder hplaceholder
        · exact ⟨w.text.toList, (List.cons.inj hw).2.symm⟩
        · exact ⟨'{' :: (w.text.toList ++ ['}']), by simp [(List.cons.inj hw).2]⟩
  · rw [next_of_ne hc]
    exact List.dropWhile_suffix _

theorem ofChars_cons' (c : Char) (s : List Char) :
    ofChars (c :: s) = push (next c s).1 (ofChars (next c s).2) :=
  ofChars_cons (next_suffix c s).length_le

/-- What comes next is the same in front of a closing brace that does not end a placeholder. -/
theorem next_brace (h : ¬ EndsInside ('$' :: s)) (y : List Char) :
    next '$' (s ++ '}' :: y) = ((next '$' s).1, (next '$' s).2 ++ '}' :: y) := by
  by_cases hs : s.head? = some '$'
  · obtain ⟨u, rfl⟩ := List.head?_eq_some_iff.1 hs
    rw [List.cons_append, next, next]
  · have hs' : (s ++ '}' :: y).head? ≠ some '$' := by
      cases s with
      | nil => simp
      | cons c s => exact hs
    have hopen : ¬ ∃ w : Glsl.Word, s = '{' :: w.text.toList := by
      rintro ⟨w, rfl⟩
      exact h ⟨[], w, rfl⟩
    have hlocal := Glsl.Scan.local_placeholder hopen y
    rw [Glsl.Scan.Local, List.cons_append] at hlocal
    cases hplaceholder : Glsl.Scan.placeholder ('$' :: s) with
    | none =>
      rw [hplaceholder] at hlocal
      rw [next_dollar hs hplaceholder, next_dollar hs' hlocal]
    | some found =>
      rw [hplaceholder] at hlocal
      rw [next_placeholder hs hplaceholder, next_placeholder hs' hlocal]

/-- Pieces may be put in front one by one or joined first. -/
theorem foldr_push_push (p : Piece) (t u : Template) :
    (push p t).foldr push u = push p (t.foldr push u) := by
  cases p with
  | placeholder name => rfl
  | text a =>
    cases t with
    | nil => rfl
    | cons q t =>
      cases q with
      | placeholder name => rfl
      | text b => exact (push_text_push a b _).symm

/-- **The pieces of a text with a closing brace in it** that does not end a placeholder are those in
front of the brace, the brace, and those behind it. -/
theorem ofChars_brace (h : ¬ EndsInside x) (y : List Char) :
    ofChars (x ++ '}' :: y) = (ofChars x).foldr push (push (.text "\x7d") (ofChars y)) := by
  induction hn : x.length using Nat.strongRecOn generalizing x with
  | ind n ih =>
    subst hn
    cases x with
    | nil =>
      rw [List.nil_append, ofChars_cons_of_ne (by decide), ofChars]
      rfl
    | cons c x =>
      by_cases hc : c = '$'
      · subst hc
        have hsuffix := next_suffix '$' x
        have hrest : ¬ EndsInside (next '$' x).2 := fun hends =>
          h (hends.of_suffix (hsuffix.trans (List.suffix_cons _ _)))
        rw [List.cons_append, ofChars_cons', next_brace h, ofChars_cons', foldr_push_push,
          ih _ (Nat.lt_succ_of_le hsuffix.length_le) hrest rfl]
      · have hrest : ¬ EndsInside x := fun hends => h (hends.of_suffix (List.suffix_cons _ _))
        rw [List.cons_append, ofChars_cons_of_ne hc, ofChars_cons_of_ne hc, foldr_push_push,
          ih _ (Nat.lt_succ_self _) hrest rfl]

/-! ### Substitution -/

/-- What a piece is replaced with. -/
def resolvePiece (resolve : String → Except ε String) : Piece → Except ε String
  | .text run => .ok run
  | .placeholder name => resolve name

theorem substitute_nil : substitute [] resolve = .ok "" := rfl

theorem substitute_cons (p : Piece) (t : Template) :
    substitute (p :: t) resolve = do
      let a ← resolvePiece resolve p
      let b ← t.substitute resolve
      return a ++ b := by
  simp only [substitute, substituteM, List.mapM_cons, bind_assoc, pure_bind, String.join_cons]
  cases p <;> rfl

/-- Joined runs of text are substituted as they are one by one. -/
theorem substitute_push (p : Piece) (t : Template) :
    (push p t).substitute resolve = substitute (p :: t) resolve := by
  cases p with
  | placeholder name => rfl
  | text a =>
    cases t with
    | nil => rfl
    | cons q t =>
      cases q with
      | placeholder name => rfl
      | text b =>
        rw [push, substitute_cons, substitute_cons, substitute_cons]
        simp only [resolvePiece, Except.ok_bind, bind_assoc, pure_bind, String.append_assoc]

/-- Parts are substituted one after the other. -/
theorem substitute_foldr_push (t u : Template) :
    (t.foldr push u).substitute resolve = do
      let a ← t.substitute resolve
      let b ← u.substitute resolve
      return a ++ b := by
  induction t with
  | nil =>
    rw [substitute_nil, Except.ok_bind, List.foldr_nil]
    simp only [String.empty_append, bind_pure]
  | cons p t ih =>
    rw [List.foldr_cons, substitute_push, substitute_cons, substitute_cons, ih]
    simp only [bind_assoc, pure_bind, String.append_assoc]

/-- **A text is substituted part by part**, in front of a closing brace that does not end a
placeholder and behind it. -/
theorem substitute_brace (h : ¬ EndsInside x) (y : List Char) :
    (ofChars (x ++ '}' :: y)).substitute resolve = do
      let a ← (ofChars x).substitute resolve
      let b ← (ofChars y).substitute resolve
      return a ++ ("\x7d" ++ b) := by
  rw [ofChars_brace h, substitute_foldr_push, substitute_push, substitute_cons]
  simp only [resolvePiece, Except.ok_bind, bind_assoc, pure_bind]

/-- A character that is in no run of text and in nothing that is put in is not in the result. -/
theorem notMem_substitute {t : Template} (ht : ∀ run, .text run ∈ t → c ∉ run.toList)
    (hresolve : ∀ name v, resolve name = .ok v → c ∉ v.toList) {u : String}
    (h : t.substitute resolve = .ok u) : c ∉ u.toList := by
  induction t generalizing u with
  | nil =>
    cases h
    exact List.not_mem_nil
  | cons p t ih =>
    rw [substitute_cons] at h
    obtain ⟨a, ha, h⟩ := Except.bind_eq_ok_iff.1 h
    obtain ⟨b, hb, h⟩ := Except.bind_eq_ok_iff.1 h
    obtain rfl : a ++ b = u := Except.ok.inj h
    have hfirst : c ∉ a.toList := by
      cases p with
      | text run =>
        obtain rfl := Except.ok.inj ha
        exact ht run List.mem_cons_self
      | placeholder name => exact hresolve name a ha
    have hrest := ih (fun run hrun => ht run (List.mem_cons_of_mem p hrun)) hb
    simp [hfirst, hrest]

theorem notMem_text_push {p : Piece} {t : Template} (hp : ∀ run, p = .text run → c ∉ run.toList)
    (ht : ∀ run, .text run ∈ t → c ∉ run.toList) :
    ∀ run, .text run ∈ push p t → c ∉ run.toList := by
  intro run hrun
  cases p with
  | placeholder name =>
    obtain hrun | hrun := List.mem_cons.1 hrun
    · cases hrun
    · exact ht run hrun
  | text a =>
    cases t with
    | nil =>
      obtain rfl := Piece.text.inj (List.mem_singleton.1 hrun)
      exact hp run rfl
    | cons q t =>
      cases q with
      | placeholder name =>
        obtain hrun | hrun := List.mem_cons.1 hrun
        · obtain rfl := Piece.text.inj hrun
          exact hp run rfl
        · exact ht run hrun
      | text b =>
        obtain hrun | hrun := List.mem_cons.1 hrun
        · obtain rfl := Piece.text.inj hrun
          simp [hp a rfl, ht b List.mem_cons_self]
        · exact ht run (List.mem_cons_of_mem _ hrun)

theorem notMem_next {d : Char} (hs : c ∉ d :: s) :
    ∀ run, (next d s).1 = .text run → c ∉ run.toList := by
  obtain ⟨hd, hs⟩ := not_or.1 (mt List.mem_cons.2 hs)
  intro run hrun
  by_cases hdollar : d = '$'
  · -- the only text that a dollar sign begins is the sign itself
    obtain rfl : run = "$" := by
      subst hdollar
      by_cases hhead : s.head? = some '$'
      · obtain ⟨u, rfl⟩ := List.head?_eq_some_iff.1 hhead
        rw [next] at hrun
        exact (Piece.text.inj hrun).symm
      · cases hplaceholder : Glsl.Scan.placeholder ('$' :: s) with
        | none =>
          rw [next_dollar hhead hplaceholder] at hrun
          exact (Piece.text.inj hrun).symm
        | some found =>
          rw [next_placeholder hhead hplaceholder] at hrun
          cases hrun
    simpa [hdollar] using hd
  · rw [next_of_ne hdollar] at hrun
    obtain rfl := Piece.text.inj hrun
    have htake : c ∉ s.takeWhile (· ≠ '$') := fun hmem => hs ((List.takeWhile_prefix _).subset hmem)
    simpa [hd] using htake

/-- The runs of text of a template are made of characters of the text it is read from. -/
theorem notMem_text_ofChars (hs : c ∉ s) : ∀ run, .text run ∈ ofChars s → c ∉ run.toList := by
  induction hn : s.length using Nat.strongRecOn generalizing s with
  | ind n ih =>
    subst hn
    cases s with
    | nil => simp [ofChars]
    | cons d s =>
      have hsuffix := next_suffix d s
      have hrest : c ∉ (next d s).2 := fun hmem =>
        hs (List.mem_cons_of_mem d (hsuffix.subset hmem))
      rw [ofChars_cons']
      exact notMem_text_push (notMem_next hs) (ih _ (Nat.lt_succ_of_le hsuffix.length_le) hrest rfl)

end Template

end ShaderLink
