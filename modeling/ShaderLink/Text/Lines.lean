import ShaderLink.Text.Blank

/-!
# Lines and indentation

A text is cut into lines at line feeds. Code given to the linker is usually an indented block
inside another file, so it is **dedented** once before it is read: blank lines at both ends go,
and every line loses the indentation that all lines share.

Indentation is measured in the bytes of UTF-8. A line whose indentation is made of wider
characters can therefore be cut in the middle of one of them; `dedent` answers `none` there
instead of a text.
-/

namespace ShaderLink.Text

/-- The lines of a text. A line ends at a line feed, which takes a carriage return directly
before it along; a text that ends with a line feed has no empty line after it. -/
def lines : List Char → List (List Char)
  | [] => []
  | '\n' :: s => [] :: lines s
  | '\r' :: '\n' :: s => [] :: lines s
  | c :: s =>
    match lines s with
    -- nothing follows, so the last line ends without a line feed
    | [] => [[c]]
    | l :: ls => (c :: l) :: ls

/-- What follows each line feed, to the end of the text. -/
def afterLineFeeds : List Char → List (List Char)
  | [] => []
  | c :: s => if c = '\n' then s :: afterLineFeeds s else afterLineFeeds s

/-- The text read from the start of each of its lines to its end. -/
def lineSuffixes (s : List Char) : List (List Char) :=
  s :: afterLineFeeds s

/-- A line is blank when it holds blanks only. -/
def isBlankLine (line : List Char) : Bool :=
  line.all isBlank

/-- The bytes of a text in UTF-8. -/
def byteLength (s : List Char) : Nat :=
  s.foldr (fun c bytes => c.utf8Size + bytes) 0

/-- The bytes of the blanks that a line starts with. -/
def indentation (line : List Char) : Nat :=
  byteLength (line.takeWhile isBlank)

/-- Drops a number of bytes from the front of a text, `none` when the cut falls inside a
character or behind the end. -/
def dropBytes : Nat → List Char → Option (List Char)
  | 0, s => some s
  | _ + 1, [] => none
  | n + 1, c :: s => if c.utf8Size ≤ n + 1 then dropBytes (n + 1 - c.utf8Size) s else none

/-- A line without its first `n` bytes of indentation. A line of fewer bytes loses all the
blanks it starts with. -/
def unindent (n : Nat) (line : List Char) : Option (List Char) :=
  if n ≤ byteLength line then dropBytes n line else some (trimStart line)

/-- The lines from the first to the last that is not blank. -/
def innerLines (ls : List (List Char)) : List (List Char) :=
  ((ls.dropWhile isBlankLine).reverse.dropWhile isBlankLine).reverse

/-- The least indentation of the lines that are not blank. -/
def commonIndentation (ls : List (List Char)) : Nat :=
  (((ls.filter (!isBlankLine ·)).map indentation).min?).getD 0

/-- Dedented text: blank lines at both ends removed, the common indentation cut off every
line, lines joined by line feeds. The answer is `none` when the common indentation ends inside
a character of some line. -/
def dedent (code : List Char) : Option (List Char) := do
  let inner := innerLines (lines code)
  let cut ← inner.mapM (unindent (commonIndentation inner))
  return ['\n'].intercalate cut

end ShaderLink.Text
