import Mathlib.Data.List.DropRight
import ShaderLink.Proofs.Text.Dedent

/-!
# Dedenting takes the common indentation

For text of one-byte characters dedenting can be said without bytes: it drops the same number of
characters from every line (`dedent_eq`), since a blank line that is shorter than the cut is all
indentation. Every cut then falls between two characters, so there is always a dedented text.

The main result, `dedent_strips_common_indentation`, says what the number is and what it leaves. The
lines that are not blank have one margin in common, and one of them has nothing else in front. So
the lines that are left have no common margin, and dedenting twice is dedenting once; and a margin
put before every line (`indent`) becomes part of the common one, and goes with it.

Carriage returns are left out because they can join the line feed behind a cut, and a line then loses
a character that is not at its front.
-/

namespace ShaderLink.Text

variable {s code line : List Char} {ls : List (List Char)} {l margin : List Char} {k n : Nat}

/-! ### One-byte characters -/

/-- Every character is one byte of UTF-8. -/
def IsAscii (s : List Char) : Prop := ∀ c ∈ s, c.toNat < 128

instance (s : List Char) : Decidable (IsAscii s) :=
  decidable_of_iff (s.all fun c => decide (c.toNat < 128)) (by simp [IsAscii])

theorem utf8Size_of_ascii {c : Char} (hc : c.toNat < 128) : c.utf8Size = 1 :=
  Char.utf8Size_eq_one_iff.2 (UInt32.le_iff_toNat_le.2 (Nat.le_of_lt_succ hc))

theorem IsAscii.sublist {t : List Char} (hs : IsAscii s) (h : t.Sublist s) : IsAscii t :=
  fun c hc => hs c (h.subset hc)

theorem IsAscii.byteLength_eq (hs : IsAscii s) : byteLength s = s.length := by
  rw [byteLength_of_width fun c hc => utf8Size_of_ascii (hs c hc), Nat.mul_one]

theorem IsAscii.dropBytes_eq (hs : IsAscii s) (hn : n ≤ s.length) :
    dropBytes n s = some (s.drop n) := by
  have hbytes : byteLength (s.take n) = n := by
    rw [(hs.sublist (List.take_sublist n s)).byteLength_eq, List.length_take_of_le hn]
  calc dropBytes n s
      = dropBytes (byteLength (s.take n)) (s.take n ++ s.drop n) := by
        rw [hbytes, List.take_append_drop]
    _ = some (s.drop n) := dropBytes_append _ _

theorem IsAscii.indentation_eq (hl : IsAscii line) :
    indentation line = (line.takeWhile isBlank).length :=
  (hl.sublist (List.takeWhile_sublist _)).byteLength_eq

/-- A blank line shorter than the cut loses all it has, so the cut is the same on every line. -/
theorem IsAscii.unindent_eq (hl : IsAscii line)
    (hn : isBlankLine line = false → n ≤ indentation line) :
    unindent n line = some (line.drop n) := by
  rw [unindent, hl.byteLength_eq]
  split
  · next hle => exact hl.dropBytes_eq hle
  · next hlt =>
    have hblank : isBlankLine line = true := by
      by_contra hne
      have hle := hn (Bool.eq_false_iff.2 hne)
      rw [hl.indentation_eq] at hle
      have := (List.takeWhile_sublist isBlank (l := line)).length_le
      omega
    rw [trimStart, List.dropWhile_eq_nil_iff.2 (List.all_eq_true.1 hblank),
      List.drop_eq_nil_of_le (Nat.le_of_not_le hlt)]

/-! ### Line by line -/

/-- A text is empty, a single line, or a line in front of a shorter text. -/
@[elab_as_elim]
theorem line_induction {motive : List Char → Prop} (nil : motive [])
    (last : ∀ l, l ≠ [] → '\n' ∉ l → motive l)
    (line : ∀ l t, '\n' ∉ l → motive t → motive (l ++ '\n' :: t)) (s : List Char) : motive s := by
  induction hlength : s.length using Nat.strong_induction_on generalizing s with
  | _ length ih =>
    by_cases hfeed : '\n' ∈ s
    · obtain ⟨l, t, rfl, hl⟩ := List.eq_append_cons_of_mem hfeed
      have hshorter : t.length < length := by
        rw [← hlength, List.length_append, List.length_cons]
        omega
      exact line l t hl (ih t.length hshorter t rfl)
    · by_cases hnil : s = []
      · exact hnil ▸ nil
      · exact last s hnil hfeed

theorem lines_append_line (hfeed : '\n' ∉ l) (hreturn : '\r' ∉ l) (s : List Char) :
    lines (l ++ '\n' :: s) = l :: lines s := by
  obtain ⟨m, hlines, rfl | rfl⟩ := lines_line hfeed s
  · exact hlines
  · simp at hreturn

theorem mem_of_mem_lines {c : Char} (h : l ∈ lines s) (hc : c ∈ l) : c ∈ s := by
  induction s using line_induction with
  | nil => cases h
  | last m hne hm =>
    rw [lines_of_not_mem hne hm] at h
    exact List.mem_singleton.1 h ▸ hc
  | line m t hm ih =>
    obtain ⟨m', hlines, hm'⟩ := lines_line hm t
    rw [hlines] at h
    obtain rfl | h := List.mem_cons.1 h
    · obtain rfl | rfl := hm'
      · exact List.mem_append_left _ hc
      · exact List.mem_append_left _ (List.mem_append_left _ hc)
    · exact List.mem_append_right _ (List.mem_cons_of_mem _ (ih h))

/-- Joined lines are lines again, unless the last one is empty: nothing stands for it then. -/
theorem lines_intercalate (hfeed : ∀ l ∈ ls, '\n' ∉ l) (hreturn : ∀ l ∈ ls, '\r' ∉ l)
    (hlast : ls.getLast? ≠ some []) : lines (['\n'].intercalate ls) = ls := by
  induction ls with
  | nil => rfl
  | cons l ls ih =>
    obtain ⟨hl, hfeed⟩ := List.forall_mem_cons.1 hfeed
    obtain ⟨hl', hreturn⟩ := List.forall_mem_cons.1 hreturn
    by_cases hnil : ls = []
    · subst hnil
      have hne : l ≠ [] := fun h => hlast (by simp [h])
      rw [List.intercalate_singleton, lines_of_not_mem hne hl]
    · obtain ⟨m, rest, rfl⟩ := List.exists_cons_of_ne_nil hnil
      rw [List.getLast?_cons_cons] at hlast
      rw [intercalate_cons_of_ne_nil l hnil, lines_append_line hl hl', ih hfeed hreturn hlast]

/-! ### The lines between the blank ends -/

/-- Neither the first line nor the last is blank. -/
structure InkAtEnds (ls : List (List Char)) : Prop where
  first : ∀ l ∈ ls.head?, isBlankLine l = false
  last : ∀ l ∈ ls.getLast?, isBlankLine l = false

theorem innerLines_eq_rdropWhile (ls : List (List Char)) :
    innerLines ls = (ls.dropWhile isBlankLine).rdropWhile isBlankLine := rfl

theorem inkAtEnds_innerLines (ls : List (List Char)) : InkAtEnds (innerLines ls) := by
  constructor
  · intro l hl
    obtain ⟨after, hafter⟩ := List.rdropWhile_prefix isBlankLine (ls.dropWhile isBlankLine)
    have hhead : (ls.dropWhile isBlankLine).head? = some l := by
      rw [← hafter, List.head?_append]
      rw [innerLines_eq_rdropWhile] at hl
      rw [hl]
      rfl
    have := List.head?_dropWhile_not isBlankLine ls
    rwa [hhead] at this
  · intro l hl
    have hne : innerLines ls ≠ [] := by
      intro hnil
      rw [hnil] at hl
      cases hl
    obtain rfl : (innerLines ls).getLast hne = l :=
      Option.some.inj ((List.getLast?_eq_some_getLast hne).symm.trans hl)
    exact Bool.eq_false_iff.2 (List.rdropWhile_last_not isBlankLine _ hne)

/-- What goes at the two ends is blank. -/
theorem exists_eq_append_innerLines (ls : List (List Char)) :
    ∃ before after, ls = before ++ innerLines ls ++ after ∧
      ∀ l ∈ before ++ after, isBlankLine l = true := by
  refine ⟨ls.takeWhile isBlankLine, (ls.dropWhile isBlankLine).rtakeWhile isBlankLine, ?_, ?_⟩
  · rw [innerLines_eq_rdropWhile, List.append_assoc, List.rdropWhile_append_rtakeWhile,
      List.takeWhile_append_dropWhile]
  · intro l hl
    obtain hl | hl := List.mem_append.1 hl
    · exact List.mem_takeWhile_imp hl
    · exact List.mem_rtakeWhile_imp hl

theorem InkAtEnds.innerLines_eq (h : InkAtEnds ls) : innerLines ls = ls := by
  cases ls with
  | nil => rfl
  | cons l ls =>
    have hfirst : ¬isBlankLine l = true := by simp [h.first l rfl]
    rw [innerLines_eq_rdropWhile, List.dropWhile_cons_of_neg hfirst,
      List.rdropWhile_eq_self_iff]
    intro hne
    exact Bool.eq_false_iff.1 (h.last _ (List.getLast?_eq_some_getLast hne))

theorem InkAtEnds.exists_mem (h : InkAtEnds ls) (hne : ls ≠ []) :
    ∃ l ∈ ls, isBlankLine l = false := by
  obtain ⟨l, rest, rfl⟩ := List.exists_cons_of_ne_nil hne
  exact ⟨l, List.mem_cons_self, h.first l rfl⟩

variable {f : List Char → List Char}

/-- Lines keep their place among the others when none turns blank and none stops being it. -/
theorem InkAtEnds.map (h : InkAtEnds ls) (hf : ∀ l ∈ ls, isBlankLine (f l) = isBlankLine l) :
    InkAtEnds (ls.map f) := by
  constructor
  · intro l hl
    rw [List.head?_map] at hl
    obtain ⟨m, hm, rfl⟩ := Option.map_eq_some_iff.1 hl
    rw [hf m (List.mem_of_mem_head? hm)]
    exact h.first m hm
  · intro l hl
    rw [List.getLast?_map] at hl
    obtain ⟨m, hm, rfl⟩ := Option.map_eq_some_iff.1 hl
    rw [hf m (List.mem_of_getLast? hm)]
    exact h.last m hm

theorem innerLines_map (hf : ∀ l, isBlankLine (f l) = isBlankLine l) :
    innerLines (ls.map f) = (innerLines ls).map f := by
  have hcomp : isBlankLine ∘ f = isBlankLine := funext hf
  rw [innerLines, innerLines, List.dropWhile_map, hcomp, ← List.map_reverse, List.dropWhile_map,
    hcomp, List.map_reverse]

/-! ### Margins -/

/-- Blanks only. -/
def IsMargin (s : List Char) : Prop := ∀ c ∈ s, isBlank c = true

theorem IsMargin.isBlankLine_append (hmargin : IsMargin margin) (l : List Char) :
    isBlankLine (margin ++ l) = isBlankLine l := by
  rw [isBlankLine, List.all_append, List.all_eq_true.2 hmargin, Bool.true_and]
  rfl

theorem IsMargin.indentation_append (hmargin : IsMargin margin) (l : List Char) :
    indentation (margin ++ l) = byteLength margin + indentation l := by
  rw [indentation, List.takeWhile_append_of_pos hmargin, byteLength_append]
  rfl

/-- What is cut off a line is a margin if the line is blank or indented far enough. -/
theorem IsAscii.isMargin_take (hl : IsAscii l)
    (hn : isBlankLine l = false → n ≤ indentation l) : IsMargin (l.take n) := by
  cases hblank : isBlankLine l with
  | true => exact fun c hc => List.all_eq_true.1 hblank c (List.mem_of_mem_take hc)
  | false =>
    have hn := hn hblank
    rw [hl.indentation_eq] at hn
    have hshorter : l.take n <+: l.takeWhile isBlank :=
      List.prefix_of_prefix_length_le (List.take_prefix n l) (List.takeWhile_prefix _)
        ((List.length_take_le n l).trans hn)
    exact fun c hc => List.mem_takeWhile_imp (hshorter.subset hc)

/-- A line without indentation that is not blank begins with ink. -/
theorem exists_head_of_indentation (hblank : isBlankLine l = false) (h : indentation l = 0) :
    ∃ c ∈ l.head?, isBlank c = false := by
  cases l with
  | nil => cases hblank
  | cons c l =>
    refine ⟨c, rfl, ?_⟩
    by_contra hc
    rw [indentation, List.takeWhile_cons_of_pos (eq_true_of_ne_false hc)] at h
    exact absurd h (byteLength_pos (List.cons_ne_nil _ _)).ne'

/-- Some line has the common indentation. -/
theorem exists_indentation_eq (hl : l ∈ ls) (hblank : isBlankLine l = false) :
    ∃ m ∈ ls, isBlankLine m = false ∧ indentation m = commonIndentation ls := by
  obtain ⟨m, hm, hindentation⟩ :=
    List.mem_map.1 (List.min?_eq_some_iff.1 (min?_indentation hl hblank)).1
  obtain ⟨hm, hblank⟩ := List.mem_filter.1 hm
  exact ⟨m, hm, by simpa using hblank, hindentation⟩

/-- A margin before every line becomes part of the common one. -/
theorem IsMargin.commonIndentation_map (hmargin : IsMargin margin) (hl : l ∈ ls)
    (hblank : isBlankLine l = false) :
    commonIndentation (ls.map (margin ++ ·)) = byteLength margin + commonIndentation ls := by
  apply Nat.le_antisymm
  · obtain ⟨m, hm, hm', hindentation⟩ := exists_indentation_eq hl hblank
    rw [← hindentation, ← hmargin.indentation_append]
    exact commonIndentation_le (List.mem_map_of_mem hm) (by rwa [hmargin.isBlankLine_append])
  · obtain ⟨m', hm', hblank', hindentation⟩ := exists_indentation_eq
      (List.mem_map_of_mem (f := (margin ++ ·)) hl) (by rwa [hmargin.isBlankLine_append])
    obtain ⟨m, hm, rfl⟩ := List.mem_map.1 hm'
    rw [hmargin.isBlankLine_append] at hblank'
    rw [← hindentation, hmargin.indentation_append]
    exact Nat.add_le_add_left (commonIndentation_le hm hblank') _

/-! ### Indented text -/

/-- Puts `k` spaces before every character that begins a line, from a place that does or does not
begin one. -/
def indentFrom (k : Nat) : Bool → List Char → List Char
  | _, [] => []
  | start, c :: s =>
    (if start then List.replicate k ' ' else []) ++ c :: indentFrom k (c == '\n') s

/-- The text with `k` spaces before every line, the empty ones included. -/
def indent (k : Nat) (s : List Char) : List Char := indentFrom k true s

example : indent 2 "a\n\n b\n".toList = "  a\n  \n   b\n".toList := by decide

theorem isAscii_spaces (k : Nat) : IsAscii (List.replicate k ' ') := fun c hc =>
  List.eq_of_mem_replicate hc ▸ by decide

theorem byteLength_spaces (k : Nat) : byteLength (List.replicate k ' ') = k := by
  rw [(isAscii_spaces k).byteLength_eq, List.length_replicate]

/-- Within a line nothing is put in. -/
theorem indentFrom_false_append (hl : '\n' ∉ l) (s : List Char) :
    indentFrom k false (l ++ s) = l ++ indentFrom k false s := by
  induction l with
  | nil => rfl
  | cons c l ih =>
    obtain ⟨hc, hl⟩ := not_or.1 (mt List.mem_cons.2 hl)
    have hc : (c == '\n') = false := beq_eq_false_iff_ne.2 (Ne.symm hc)
    rw [List.cons_append, indentFrom, hc, ih hl]
    rfl

theorem indentFrom_false (hl : '\n' ∉ l) : indentFrom k false l = l := by
  simpa [indentFrom] using indentFrom_false_append (k := k) hl []

theorem indentFrom_false_line (hl : '\n' ∉ l) (s : List Char) :
    indentFrom k false (l ++ '\n' :: s) = l ++ '\n' :: indent k s :=
  indentFrom_false_append hl ('\n' :: s)

theorem indent_eq_append (hs : s ≠ []) :
    indent k s = List.replicate k ' ' ++ indentFrom k false s := by
  obtain ⟨c, s, rfl⟩ := List.exists_cons_of_ne_nil hs
  rfl

theorem lines_indent (k : Nat) (hreturn : '\r' ∉ s) :
    lines (indent k s) = (lines s).map (List.replicate k ' ' ++ ·) := by
  induction s using line_induction with
  | nil => rfl
  | last l hne hfeed =>
    have hfeed' : '\n' ∉ List.replicate k ' ' ++ l := by
      simp [hfeed]
    rw [indent_eq_append hne, indentFrom_false hfeed, lines_of_not_mem hne hfeed,
      lines_of_not_mem (List.append_ne_nil_of_right_ne_nil _ hne) hfeed']
    rfl
  | line l t hfeed ih =>
    have hl : '\r' ∉ l := fun h => hreturn (List.mem_append_left _ h)
    have ht : '\r' ∉ t := fun h => hreturn (List.mem_append_right _ (List.mem_cons_of_mem _ h))
    have hfeed' : '\n' ∉ List.replicate k ' ' ++ l := by
      simp [hfeed]
    have hreturn' : '\r' ∉ List.replicate k ' ' ++ l := by
      simp [hl]
    rw [indent_eq_append (by simp), indentFrom_false_line hfeed, ← List.append_assoc,
      lines_append_line hfeed' hreturn', ih ht, lines_append_line hfeed hl]
    rfl

/-! ### The common indentation goes -/

theorem mapM_eq_some_map {α β : Type} {f : α → Option β} {g : α → β} {as : List α}
    (h : ∀ a ∈ as, f a = some (g a)) : as.mapM f = some (as.map g) := by
  induction as with
  | nil => rfl
  | cons a as ih =>
    obtain ⟨ha, has⟩ := List.forall_mem_cons.1 h
    rw [List.mapM_cons, ha, ih has]
    rfl

theorem isAscii_of_mem_lines (hs : IsAscii s) (hl : l ∈ lines s) : IsAscii l :=
  fun c hc => hs c (mem_of_mem_lines hl hc)

theorem IsAscii.isBlankLine_drop (hl : IsAscii l) (hn : isBlankLine l = false → n ≤ indentation l) :
    isBlankLine (l.drop n) = isBlankLine l := by
  conv_rhs => rw [← List.take_append_drop n l]
  rw [(hl.isMargin_take hn).isBlankLine_append]

theorem IsAscii.length_take (hl : IsAscii l) (hn : n ≤ indentation l) : (l.take n).length = n := by
  rw [hl.indentation_eq] at hn
  exact List.length_take_of_le (hn.trans (List.takeWhile_sublist isBlank).length_le)

theorem IsAscii.indentation_drop (hl : IsAscii l) (hn : n ≤ indentation l) :
    indentation (l.drop n) = indentation l - n := by
  have hmargin : IsMargin (l.take n) := hl.isMargin_take fun _ => hn
  have hbytes : byteLength (l.take n) = n := by
    rw [(hl.sublist (List.take_sublist n l)).byteLength_eq, hl.length_take hn]
  have h := hmargin.indentation_append (l.drop n)
  rw [List.take_append_drop, hbytes] at h
  omega

/-- Some line starts with ink once the common indentation is dropped. -/
theorem exists_indentation_drop (h : ∀ l ∈ ls, IsAscii l) (hends : InkAtEnds ls) (hne : ls ≠ []) :
    ∃ l ∈ ls.map (List.drop (commonIndentation ls)), isBlankLine l = false ∧ indentation l = 0 := by
  obtain ⟨l, hl, hink⟩ := hends.exists_mem hne
  obtain ⟨m, hm, hblank, hindentation⟩ := exists_indentation_eq hl hink
  refine ⟨_, List.mem_map_of_mem hm, ?_, ?_⟩
  · rw [(h m hm).isBlankLine_drop (commonIndentation_le hm), hblank]
  · rw [(h m hm).indentation_drop hindentation.ge, hindentation, Nat.sub_self]

theorem commonIndentation_drop (h : ∀ l ∈ ls, IsAscii l) (hends : InkAtEnds ls) :
    commonIndentation (ls.map (List.drop (commonIndentation ls))) = 0 := by
  by_cases hnil : ls = []
  · rw [hnil]
    rfl
  · obtain ⟨l, hl, hblank, hindentation⟩ := exists_indentation_drop h hends hnil
    exact Nat.le_zero.1 (hindentation ▸ commonIndentation_le hl hblank)

/-- The lines of code from the first to the last that is not blank, without the indentation they
have in common. -/
def dedentedLines (s : List Char) : List (List Char) :=
  (innerLines (lines s)).map (List.drop (commonIndentation (innerLines (lines s))))

/-- Dedenting drops the same number of characters from every line. -/
theorem dedent_eq (hs : ∀ l ∈ lines s, IsAscii l) :
    dedent s = some (['\n'].intercalate (dedentedLines s)) := by
  have hcut : ∀ l ∈ innerLines (lines s), unindent (commonIndentation (innerLines (lines s))) l =
      some (l.drop (commonIndentation (innerLines (lines s)))) := fun l hl =>
    (hs l (mem_of_mem_innerLines hl)).unindent_eq (commonIndentation_le hl)
  rw [dedent, mapM_eq_some_map hcut]
  rfl

theorem inkAtEnds_dedentedLines (hs : ∀ l ∈ lines s, IsAscii l) : InkAtEnds (dedentedLines s) :=
  (inkAtEnds_innerLines _).map fun l hl =>
    (hs l (mem_of_mem_innerLines hl)).isBlankLine_drop (commonIndentation_le hl)

theorem exists_sublist_of_mem_dedentedLines (hl : l ∈ dedentedLines s) :
    ∃ m ∈ lines s, l.Sublist m := by
  obtain ⟨m, hm, rfl⟩ := List.mem_map.1 hl
  exact ⟨m, mem_of_mem_innerLines hm, List.drop_sublist _ m⟩

/-- The dedented text has the dedented lines. -/
theorem lines_intercalate_dedentedLines (hs : ∀ l ∈ lines s, IsAscii l) (hreturn : '\r' ∉ s) :
    lines (['\n'].intercalate (dedentedLines s)) = dedentedLines s := by
  refine lines_intercalate (fun l hl hc => ?_) (fun l hl hc => ?_) fun hlast => ?_
  · obtain ⟨m, hm, hsub⟩ := exists_sublist_of_mem_dedentedLines hl
    exact newline_notMem_of_mem_lines hm (hsub.subset hc)
  · obtain ⟨m, hm, hsub⟩ := exists_sublist_of_mem_dedentedLines hl
    exact hreturn (mem_of_mem_lines hm (hsub.subset hc))
  · cases (inkAtEnds_dedentedLines hs).last [] hlast

/-- Dedented text has no indentation to lose. -/
theorem dedent_dedentedLines (hs : ∀ l ∈ lines s, IsAscii l) (hreturn : '\r' ∉ s) :
    dedent (['\n'].intercalate (dedentedLines s)) =
      some (['\n'].intercalate (dedentedLines s)) := by
  have hlines := lines_intercalate_dedentedLines hs hreturn
  have hascii : ∀ l ∈ lines (['\n'].intercalate (dedentedLines s)), IsAscii l := by
    intro l hl
    obtain ⟨m, hm, hsub⟩ := exists_sublist_of_mem_dedentedLines (hlines ▸ hl)
    exact (hs m hm).sublist hsub
  have hnone : commonIndentation (dedentedLines s) = 0 :=
    commonIndentation_drop (fun l hl => hs l (mem_of_mem_innerLines hl)) (inkAtEnds_innerLines _)
  have hagain : dedentedLines (['\n'].intercalate (dedentedLines s)) = dedentedLines s := by
    rw [dedentedLines, hlines, (inkAtEnds_dedentedLines hs).innerLines_eq, hnone]
    exact List.map_id _
  rw [dedent_eq hascii, hagain]

/-- Spaces before every line are part of the common indentation. -/
theorem dedentedLines_indent (k : Nat) (hreturn : '\r' ∉ s) :
    dedentedLines (indent k s) = dedentedLines s := by
  have hmargin : IsMargin (List.replicate k ' ') := fun c hc =>
    List.eq_of_mem_replicate hc ▸ by decide
  have hinner : innerLines (lines (indent k s)) =
      (innerLines (lines s)).map (List.replicate k ' ' ++ ·) := by
    rw [lines_indent k hreturn, innerLines_map hmargin.isBlankLine_append]
  rw [dedentedLines, hinner, List.map_map, dedentedLines]
  by_cases hnil : innerLines (lines s) = []
  · rw [hnil]
    rfl
  · obtain ⟨l, hl, hblank⟩ := (inkAtEnds_innerLines (lines s)).exists_mem hnil
    rw [hmargin.commonIndentation_map hl hblank, byteLength_spaces]
    refine List.map_congr_left fun m _ => ?_
    rw [Function.comp_apply, ← List.drop_drop, List.drop_left' (List.length_replicate ..)]

/-- What dedenting does to one line: a blank line stays blank, and any other one loses `n` blanks in
front. -/
def LosesMargin (n : Nat) (line cut : List Char) : Prop :=
  (isBlankLine line = true → isBlankLine cut = true) ∧
    (isBlankLine line = false →
      ∃ margin, line = margin ++ cut ∧ margin.length = n ∧ IsMargin margin)

theorem IsAscii.losesMargin_drop (hl : IsAscii l)
    (hn : isBlankLine l = false → n ≤ indentation l) : LosesMargin n l (l.drop n) :=
  ⟨fun hblank => (hl.isBlankLine_drop hn).trans hblank, fun hblank =>
    ⟨l.take n, (List.take_append_drop n l).symm, hl.length_take (hn hblank), hl.isMargin_take hn⟩⟩

/-- **Dedenting strips exactly the common indentation.** For code of one-byte characters without
carriage returns there is a dedented text. It is empty when all lines are blank. Otherwise it has one
line for each line from the first to the last that is not blank, all of these have lost the same
number of characters, which are blanks, and one of them now begins with a character that is not
blank; blank lines between them stay blank. Dedenting again changes nothing, and neither does
indenting every line of the code by the same run of spaces first. -/
theorem dedent_strips_common_indentation (hascii : IsAscii code) (hreturn : '\r' ∉ code) :
    ∃ result, dedent code = some result ∧
      ((∀ l ∈ lines code, isBlankLine l = true) → result = []) ∧
      ((∃ l ∈ lines code, isBlankLine l = false) →
        ∃ n before inner after, lines code = before ++ inner ++ after ∧
          (∀ l ∈ before ++ after, isBlankLine l = true) ∧ inner ≠ [] ∧ InkAtEnds inner ∧
          List.Forall₂ (LosesMargin n) inner (lines result) ∧
          ∃ l ∈ lines result, ∃ c ∈ l.head?, isBlank c = false) ∧
      dedent result = some result ∧
      ∀ k, dedent (indent k code) = some result := by
  have hs : ∀ l ∈ lines code, IsAscii l := fun l => isAscii_of_mem_lines hascii
  have hinner : ∀ l ∈ innerLines (lines code), IsAscii l :=
    fun l hl => hs l (mem_of_mem_innerLines hl)
  refine ⟨_, dedent_eq hs, fun hblank => ?_, fun ⟨l, hl, hblank⟩ => ?_,
    dedent_dedentedLines hs hreturn, fun k => ?_⟩
  · have hnil : innerLines (lines code) = [] := by
      by_contra hne
      obtain ⟨l, hl, hink⟩ := (inkAtEnds_innerLines (lines code)).exists_mem hne
      rw [hblank l (mem_of_mem_innerLines hl)] at hink
      cases hink
    rw [dedentedLines, hnil]
    rfl
  · have hne : innerLines (lines code) ≠ [] := List.ne_nil_of_mem (mem_innerLines hl hblank)
    obtain ⟨before, after, happend, hends⟩ := exists_eq_append_innerLines (lines code)
    rw [lines_intercalate_dedentedLines hs hreturn]
    refine ⟨commonIndentation (innerLines (lines code)), before, _, after, happend, hends, hne,
      inkAtEnds_innerLines _, ?_, ?_⟩
    · exact List.forall₂_map_right_iff.2 (List.forall₂_same.2 fun l hl =>
        (hinner l hl).losesMargin_drop (commonIndentation_le hl))
    · obtain ⟨l, hl, hblank, hindentation⟩ :=
        exists_indentation_drop hinner (inkAtEnds_innerLines _) hne
      exact ⟨l, hl, exists_head_of_indentation hblank hindentation⟩
  · have hindent : ∀ l ∈ lines (indent k code), IsAscii l := by
      rw [lines_indent k hreturn]
      intro l hl
      obtain ⟨m, hm, rfl⟩ := List.mem_map.1 hl
      exact List.forall_mem_append.2 ⟨isAscii_spaces k, hs m hm⟩
    rw [dedent_eq hindent, dedentedLines_indent k hreturn]

/-- A function as it stands in a test, between blank lines and with one in its body. -/
def indentedFunction : List Char :=
  "\n\n    vec4 f() \x7b\n        return vec4(1.0);\n \n    \x7d\n  \n".toList

/-- The body of the function keeps the indentation it has beyond that of the function. -/
theorem dedent_indentedFunction :
    ∃ result, dedent indentedFunction = some result ∧
      result = "vec4 f() \x7b\n    return vec4(1.0);\n\n\x7d".toList ∧
      dedent result = some result ∧ ∀ k, dedent (indent k indentedFunction) = some result := by
  have hascii : IsAscii indentedFunction := by decide +kernel
  obtain ⟨result, hresult, -, -, hagain, hindent⟩ :=
    dedent_strips_common_indentation hascii (by decide +kernel)
  refine ⟨result, hresult, ?_, hagain, hindent⟩
  exact Option.some.inj (hresult.symm.trans (by decide +kernel))

end ShaderLink.Text
