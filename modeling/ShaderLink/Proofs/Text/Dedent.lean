import Mathlib.Data.List.Forall2
import Mathlib.Data.List.TakeWhile
import ShaderLink.Proofs.Text.Lines

/-!
# What dedenting keeps

Dedenting takes blanks away and nothing else: every line that is left is a line of the code without
some of the blanks it starts with (`forall₂_of_dedent`), because the indentation that all lines
share is at most the indentation of each.

Two things follow. The characters that are not blank, the **ink** of a text, stay as they are
(`ink_dedent`), so a text can be found again in the dedented one by its ink (`dedent_split`). And a
line that is not blank stays a line, some blanks in front of it aside (`exists_mem_lines_dedent`).
-/

namespace ShaderLink.Text

variable {s t d l line cut : List Char} {ls : List (List Char)} {c : Char} {n w : Nat}

/-! ### Lines -/

theorem newline_notMem_of_mem_lines (h : l ∈ lines s) : '\n' ∉ l := by
  induction s using lines.induct generalizing l with
  | case1 => cases h
  | case2 s ih =>
    obtain rfl | h := List.mem_cons.1 h
    · exact List.not_mem_nil
    · exact ih h
  | case3 s ih =>
    obtain rfl | h := List.mem_cons.1 h
    · exact List.not_mem_nil
    · exact ih h
  | case4 c s hc hreturn hnil ih =>
    rw [lines.eq_4 c s hc hreturn, hnil] at h
    obtain rfl := List.mem_singleton.1 h
    simpa using fun h => hc h.symm
  | case5 c s hc hreturn first rest hlines ih =>
    rw [lines.eq_4 c s hc hreturn, hlines] at h
    obtain rfl | h := List.mem_cons.1 h
    · have hfirst : '\n' ∉ first := ih (hlines ▸ List.mem_cons_self)
      simpa [hfirst] using fun h => hc h.symm
    · exact ih (hlines ▸ List.mem_cons_of_mem _ h)

/-- The first line ends at the first line feed, and may lose a carriage return before it. -/
theorem lines_line (h : '\n' ∉ s) (t : List Char) :
    ∃ l, lines (s ++ '\n' :: t) = l :: lines t ∧ (s = l ∨ s = l ++ ['\r']) := by
  induction s with
  | nil => exact ⟨[], rfl, .inl rfl⟩
  | cons c s ih =>
    obtain ⟨hc, hs⟩ := not_or.1 (mt List.mem_cons.2 h)
    by_cases hreturn : c = '\r' ∧ s = []
    · obtain ⟨rfl, rfl⟩ := hreturn
      exact ⟨[], rfl, .inr rfl⟩
    · have hsecond : ∀ u, c = '\r' → s ++ '\n' :: t = '\n' :: u → False := by
        rintro u rfl hu
        cases s with
        | nil => exact hreturn ⟨rfl, rfl⟩
        | cons d s => exact hs (by simp [(List.cons.inj hu).1])
      obtain ⟨l, hl, hs⟩ := ih hs
      refine ⟨c :: l, ?_, ?_⟩
      · rw [List.cons_append, lines.eq_4 c _ (fun h => hc h.symm) hsecond, hl]
      · exact hs.imp (congrArg (c :: ·)) (congrArg (c :: ·))

theorem intercalate_cons_of_ne_nil (l : List Char) (h : ls ≠ []) :
    ['\n'].intercalate (l :: ls) = l ++ '\n' :: ['\n'].intercalate ls := by
  obtain ⟨m, ls, rfl⟩ := List.exists_cons_of_ne_nil h
  rw [List.intercalate_cons_cons, List.append_assoc, List.singleton_append]

/-- Joined lines are lines again if no carriage return at their end gets before a line feed. -/
theorem mem_lines_intercalate (hls : ∀ m ∈ ls, '\n' ∉ m) (hl : l ∈ ls) (hne : l ≠ [])
    (hreturn : l.getLast? ≠ some '\r') : l ∈ lines (['\n'].intercalate ls) := by
  induction ls with
  | nil => cases hl
  | cons m ls ih =>
    obtain ⟨hm, hls⟩ := List.forall_mem_cons.1 hls
    by_cases hnil : ls = []
    · subst hnil
      obtain rfl := List.mem_singleton.1 hl
      have hjoined : ['\n'].intercalate [l] = l := by simp
      rw [hjoined, lines_of_not_mem hne hm]
      exact List.mem_singleton_self l
    · obtain ⟨m', hlines, hm'⟩ := lines_line hm (['\n'].intercalate ls)
      rw [intercalate_cons_of_ne_nil m hnil, hlines]
      obtain rfl | hl := List.mem_cons.1 hl
      · obtain rfl | rfl := hm'
        · exact List.mem_cons_self
        · simp at hreturn
      · exact List.mem_cons_of_mem _ (ih hls hl)

/-! ### Indentation -/

/-- A line without some of the blanks it starts with. -/
def CutOf (line cut : List Char) : Prop :=
  ∃ blanks, line = blanks ++ cut ∧ ∀ c ∈ blanks, isBlank c = true

theorem byteLength_cons (c : Char) (s : List Char) :
    byteLength (c :: s) = c.utf8Size + byteLength s := rfl

theorem byteLength_append (s t : List Char) : byteLength (s ++ t) = byteLength s + byteLength t := by
  induction s with
  | nil => exact (Nat.zero_add _).symm
  | cons c s ih => rw [List.cons_append, byteLength_cons, byteLength_cons, ih, Nat.add_assoc]

/-- Characters of one width take as many bytes as their number says. -/
theorem byteLength_of_width (h : ∀ c ∈ s, c.utf8Size = w) : byteLength s = s.length * w := by
  induction s with
  | nil => exact (Nat.zero_mul w).symm
  | cons c s ih =>
    obtain ⟨hc, hs⟩ := List.forall_mem_cons.1 h
    rw [byteLength_cons, hc, ih hs, List.length_cons, Nat.succ_mul, Nat.add_comm]

theorem byteLength_pos (h : s ≠ []) : 0 < byteLength s := by
  obtain ⟨c, s, rfl⟩ := List.exists_cons_of_ne_nil h
  exact Nat.lt_of_lt_of_le (Char.utf8Size_pos c) (Nat.le_add_right _ _)

theorem dropBytes_eq_some (h : dropBytes n s = some t) : ∃ u, s = u ++ t ∧ byteLength u = n := by
  induction n, s using dropBytes.induct with
  | case1 s =>
    obtain rfl : s = t := by simpa [dropBytes] using h
    exact ⟨[], rfl, rfl⟩
  | case2 n => simp [dropBytes] at h
  | case3 n c s hle ih =>
    rw [dropBytes, if_pos hle] at h
    obtain ⟨u, rfl, hu⟩ := ih h
    refine ⟨c :: u, rfl, ?_⟩
    rw [byteLength_cons]
    omega
  | case4 n c s hle =>
    rw [dropBytes, if_neg hle] at h
    cases h

/-- A text is cut behind any of its beginnings. -/
theorem dropBytes_append (s t : List Char) : dropBytes (byteLength s) (s ++ t) = some t := by
  induction s with
  | nil =>
    cases t with
    | nil => rfl
    | cons c t => rfl
  | cons c s ih =>
    obtain ⟨n, hn⟩ : ∃ n, byteLength (c :: s) = n + 1 :=
      Nat.exists_eq_add_one.2 (byteLength_pos (List.cons_ne_nil c s))
    have hrest : n + 1 - c.utf8Size = byteLength s := by
      rw [← hn, byteLength_cons, Nat.add_sub_cancel_left]
    have hle : c.utf8Size ≤ n + 1 := hn ▸ Nat.le_add_right _ _
    rw [hn, List.cons_append, dropBytes, if_pos hle, hrest, ih]

/-- What is cut off a line is blank if the line is blank or indented far enough. -/
theorem cutOf_of_unindent (h : unindent n line = some cut)
    (hn : isBlankLine line = false → n ≤ indentation line) : CutOf line cut := by
  unfold unindent at h
  split at h
  · obtain ⟨u, rfl, rfl⟩ := dropBytes_eq_some h
    refine ⟨u, rfl, ?_⟩
    cases hblank : isBlankLine (u ++ cut) with
    | true => exact fun c hc => List.all_eq_true.1 hblank c (List.mem_append_left cut hc)
    | false =>
      -- both parts begin the line, and the blanks are not the shorter ones
      have hprefix : (u ++ cut).takeWhile isBlank <+: u ++ cut := List.takeWhile_prefix _
      obtain ⟨v, hv⟩ | ⟨v, hv⟩ := List.prefix_or_prefix_of_prefix (List.prefix_append u cut) hprefix
      · exact fun c hc => List.mem_takeWhile_imp (hv ▸ List.mem_append_left v hc)
      · have hle : byteLength ((u ++ cut).takeWhile isBlank) + byteLength v ≤
            byteLength ((u ++ cut).takeWhile isBlank) := by
          rw [← byteLength_append, hv]
          exact hn hblank
        have hnil : v = [] := by
          by_contra hne
          have := byteLength_pos hne
          omega
        rw [hnil, List.append_nil] at hv
        exact fun c hc => List.mem_takeWhile_imp (hv ▸ hc)
  · obtain rfl : trimStart line = cut := Option.some.inj h
    exact ⟨line.takeWhile isBlank, List.takeWhile_append_dropWhile.symm,
      fun c hc => List.mem_takeWhile_imp hc⟩

/-- Where some line is not blank, the common indentation is the least of the indentations. -/
theorem min?_indentation (hl : l ∈ ls) (hblank : isBlankLine l = false) :
    ((ls.filter (!isBlankLine ·)).map indentation).min? = some (commonIndentation ls) := by
  have hmem : indentation l ∈ (ls.filter (!isBlankLine ·)).map indentation :=
    List.mem_map_of_mem (List.mem_filter.2 ⟨hl, by simp [hblank]⟩)
  obtain ⟨least, hleast⟩ := Option.isSome_iff_exists.1 (List.isSome_min?_of_mem hmem)
  rw [commonIndentation, hleast, Option.getD_some]

theorem commonIndentation_le (hl : l ∈ ls) (hblank : isBlankLine l = false) :
    commonIndentation ls ≤ indentation l :=
  (List.min?_eq_some_iff.1 (min?_indentation hl hblank)).2 _
    (List.mem_map_of_mem (List.mem_filter.2 ⟨hl, by simp [hblank]⟩))

/-! ### Dedented text -/

theorem mem_of_mem_innerLines (h : l ∈ innerLines ls) : l ∈ ls := by
  have h := (List.dropWhile_suffix isBlankLine).subset (List.mem_reverse.1 h)
  exact (List.dropWhile_suffix isBlankLine).subset (List.mem_reverse.1 h)

/-- Only blank lines go at the ends. -/
theorem mem_innerLines (h : l ∈ ls) (hblank : isBlankLine l = false) : l ∈ innerLines ls := by
  have hdrop : ∀ ms : List (List Char), l ∈ ms → l ∈ ms.dropWhile isBlankLine := by
    intro ms hms
    rw [← List.takeWhile_append_dropWhile (p := isBlankLine) (l := ms)] at hms
    refine (List.mem_append.1 hms).resolve_left fun hmem => ?_
    rw [List.mem_takeWhile_imp hmem] at hblank
    cases hblank
  exact List.mem_reverse.2 (hdrop _ (List.mem_reverse.2 (hdrop ls h)))

theorem exists_mem_of_forall₂ {α β : Type} {r : α → β → Prop} {as : List α} {bs : List β} {a : α}
    (h : List.Forall₂ r as bs) (ha : a ∈ as) : ∃ b ∈ bs, r a b := by
  obtain ⟨i, hi, rfl⟩ := List.getElem_of_mem ha
  exact ⟨_, List.getElem_mem (h.length_eq ▸ hi), h.get hi _⟩

theorem forall₂_of_mapM {α β : Type} {f : α → Option β} {as : List α} {bs : List β}
    (h : as.mapM f = some bs) : List.Forall₂ (fun a b => f a = some b) as bs := by
  induction as generalizing bs with
  | nil =>
    obtain rfl : [] = bs := Option.some.inj h
    exact .nil
  | cons a as ih =>
    rw [List.mapM_cons] at h
    obtain ⟨b, hb, h⟩ := Option.bind_eq_some_iff.1 h
    obtain ⟨bs', hbs, h⟩ := Option.bind_eq_some_iff.1 h
    obtain rfl : b :: bs' = bs := Option.some.inj h
    exact .cons hb (ih hbs)

/-- **Dedented text** is made of the lines from the first to the last that is not blank, each
without some of the blanks it starts with. -/
theorem forall₂_of_dedent (h : dedent s = some d) :
    ∃ cuts, List.Forall₂ CutOf (innerLines (lines s)) cuts ∧ d = ['\n'].intercalate cuts := by
  obtain ⟨cuts, hcuts, h⟩ := Option.bind_eq_some_iff.1 h
  refine ⟨cuts, ?_, (Option.some.inj h).symm⟩
  have hlines := forall₂_of_mapM hcuts
  rw [List.forall₂_iff_get] at hlines ⊢
  refine ⟨hlines.1, fun i hi hi' => cutOf_of_unindent (hlines.2 i hi hi') fun hblank => ?_⟩
  exact commonIndentation_le (List.get_mem _ _) hblank

/-! ### Ink -/

/-- The characters of a text that are not blank. -/
def ink (s : List Char) : List Char := s.filter (!isBlank ·)

theorem ink_append (s t : List Char) : ink (s ++ t) = ink s ++ ink t := List.filter_append ..

theorem ink_cons_of_blank (hc : isBlank c = true) : ink (c :: s) = ink s :=
  List.filter_cons_of_neg (by simp [hc])

theorem ink_cons_of_not_blank (hc : isBlank c = false) : ink (c :: s) = c :: ink s :=
  List.filter_cons_of_pos (by simp [hc])

theorem ink_eq_nil (h : ∀ c ∈ s, isBlank c = true) : ink s = [] :=
  List.filter_eq_nil_iff.2 fun c hc => by simp [h c hc]

theorem CutOf.ink_eq (h : CutOf line cut) : ink cut = ink line := by
  obtain ⟨blanks, rfl, hblanks⟩ := h
  rw [ink_append, ink_eq_nil hblanks, List.nil_append]

theorem flatMap_ink_of_cutOf {cuts : List (List Char)} (h : List.Forall₂ CutOf ls cuts) :
    cuts.flatMap ink = ls.flatMap ink := by
  induction h with
  | nil => rfl
  | cons hcut _ ih => rw [List.flatMap_cons, List.flatMap_cons, hcut.ink_eq, ih]

theorem flatMap_ink_lines (s : List Char) : (lines s).flatMap ink = ink s := by
  have hfeed : isBlank '\n' = true := by decide
  have hreturn : isBlank '\r' = true := by decide
  induction s using lines.induct with
  | case1 => rfl
  | case2 s ih =>
    rw [ink_cons_of_blank hfeed, ← ih]
    rfl
  | case3 s ih =>
    rw [ink_cons_of_blank hreturn, ink_cons_of_blank hfeed, ← ih]
    rfl
  | case4 c s hc hr hnil ih =>
    have htail : ink s = [] := by rw [← ih, hnil]; rfl
    rw [lines.eq_4 c s hc hr, hnil, ← List.singleton_append (l := s), ink_append, htail]
    rfl
  | case5 c s hc hr first rest hlines ih =>
    rw [lines.eq_4 c s hc hr, hlines, ← List.singleton_append (l := s), ink_append, ← ih, hlines]
    calc (((c :: first) :: rest).flatMap ink)
        = ink ([c] ++ first) ++ rest.flatMap ink := rfl
      _ = ink [c] ++ (first :: rest).flatMap ink := by
        rw [ink_append, List.append_assoc, List.flatMap_cons]

theorem flatMap_ink_innerLines (ls : List (List Char)) :
    (innerLines ls).flatMap ink = ls.flatMap ink := by
  have hdrop : ∀ ms : List (List Char), (∀ l ∈ ms, isBlankLine l = true) → ms.flatMap ink = [] :=
    fun ms hms => List.flatMap_eq_nil_iff.2 fun l hl =>
      ink_eq_nil (List.all_eq_true.1 (hms l hl))
  have hfront : (ls.dropWhile isBlankLine).flatMap ink = ls.flatMap ink := by
    conv_rhs => rw [← List.takeWhile_append_dropWhile (p := isBlankLine) (l := ls)]
    rw [List.flatMap_append, hdrop _ fun l hl => List.mem_takeWhile_imp hl, List.nil_append]
  have hback : ∀ ms : List (List Char),
      (ms.reverse.dropWhile isBlankLine).reverse.flatMap ink = ms.flatMap ink := by
    intro ms
    conv_rhs => rw [← List.reverse_reverse ms,
      ← List.takeWhile_append_dropWhile (p := isBlankLine) (l := ms.reverse)]
    rw [List.reverse_append, List.flatMap_append,
      hdrop (ms.reverse.takeWhile isBlankLine).reverse fun l hl =>
        List.mem_takeWhile_imp (List.mem_reverse.1 hl), List.append_nil]
  rw [innerLines, hback, hfront]

theorem ink_intercalate (ls : List (List Char)) : ink (['\n'].intercalate ls) = ls.flatMap ink := by
  induction ls with
  | nil => rfl
  | cons l ls ih =>
    by_cases hnil : ls = []
    · subst hnil
      simp
    · rw [intercalate_cons_of_ne_nil l hnil, ink_append, ink_cons_of_blank (by decide), ih,
        List.flatMap_cons]

/-- **Dedenting keeps every character that is not blank.** -/
theorem ink_dedent (h : dedent s = some d) : ink d = ink s := by
  obtain ⟨cuts, hcuts, rfl⟩ := forall₂_of_dedent h
  rw [ink_intercalate, flatMap_ink_of_cutOf hcuts, flatMap_ink_innerLines, flatMap_ink_lines]

/-- A character that is not blank is found again, between what was before and behind it. -/
theorem dedent_split (hc : isBlank c = false) (h : dedent (s ++ c :: t) = some d) :
    ∃ front back, d = front ++ c :: back ∧ ink front = ink s ∧ ink back = ink t := by
  have hink : ink d = ink s ++ c :: ink t := by
    rw [ink_dedent h, ink_append, ink_cons_of_not_blank hc]
  obtain ⟨front, rest, rfl, hfront, hrest⟩ := List.filter_eq_append_iff.1 hink
  obtain ⟨blanks, back, rfl, hblanks, -, hback⟩ := List.filter_eq_cons_iff.1 hrest
  refine ⟨front ++ blanks, back, by simp, ?_, hback⟩
  have hnil : ink blanks = [] := List.filter_eq_nil_iff.2 hblanks
  rw [ink_append, hnil, List.append_nil]
  exact hfront

/-- **A line that is not blank stays a line**, without some of the blanks in front of it. -/
theorem exists_mem_lines_dedent (h : dedent s = some d) (hl : line ++ [c] ∈ lines s)
    (hc : isBlank c = false) : ∃ cut, CutOf line cut ∧ cut ++ [c] ∈ lines d := by
  obtain ⟨cuts, hcuts, rfl⟩ := forall₂_of_dedent h
  have hblank : isBlankLine (line ++ [c]) = false := by simp [isBlankLine, hc]
  obtain ⟨cut, hcut, blanks, hline, hblanks⟩ := exists_mem_of_forall₂ hcuts
    (mem_innerLines hl hblank)
  -- the last character is not among the blanks that are cut off
  obtain rfl | ⟨cut, e, rfl⟩ := cut.eq_nil_or_concat
  · have hmem : c ∈ blanks := by
      rw [List.append_nil] at hline
      simp [← hline]
    rw [hblanks c hmem] at hc
    cases hc
  · rw [List.concat_eq_append] at hline hcut
    rw [← List.append_assoc] at hline
    obtain ⟨rfl, hlast⟩ := List.append_inj' hline rfl
    obtain rfl : c = e := List.singleton_inj.1 hlast
    refine ⟨cut, ⟨blanks, rfl, hblanks⟩, mem_lines_intercalate ?_ hcut (by simp) ?_⟩
    · intro m hm hfeed
      obtain ⟨l, hl, b, rfl, -⟩ := exists_mem_of_forall₂ hcuts.flip hm
      exact newline_notMem_of_mem_lines (mem_of_mem_innerLines hl) (List.mem_append_right b hfeed)
    · rw [List.getLast?_concat]
      rintro ⟨⟩
      exact absurd hc (by decide)

end ShaderLink.Text
