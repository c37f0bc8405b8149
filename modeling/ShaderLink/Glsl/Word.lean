/-!
# Words of the shading language

The words that mean something in shader code by themselves: the builtin types, the keywords, and
among these the storage qualifiers of program variables. A word that is a builtin type or a keyword
is **reserved**: no object is given it as a name.
-/

namespace ShaderLink

/-- The storage qualifier of a program variable. -/
inductive Qualifier where
  | uniform
  | vertexAttribute
  | varying
  | const
deriving DecidableEq, Repr

namespace Qualifier

/-- The keyword of a qualifier. -/
def keyword : Qualifier → String
  | uniform => "uniform"
  | vertexAttribute => "attribute"
  | varying => "varying"
  | const => "const"

/-- All qualifiers. -/
def all : List Qualifier := [uniform, vertexAttribute, varying, const]

/-- The qualifier that a keyword names. -/
def ofKeyword? (word : String) : Option Qualifier :=
  all.find? fun q => q.keyword == word

/-- Reading a keyword undoes writing it. -/
theorem ofKeyword?_keyword (q : Qualifier) : ofKeyword? q.keyword = some q := by
  cases q <;> decide +kernel

end Qualifier

namespace Glsl

/-- Scalar types with the letter that marks vectors of them. -/
def scalars : List (String × String) :=
  [("bool", "b"), ("int", "i"), ("uint", "u"), ("float", ""), ("double", "d")]

/-- The sizes of vectors and of the sides of matrices. -/
def sizes : List String := ["2", "3", "4"]

/-- Vector types of all scalars and sizes. -/
def vectors : List String :=
  sizes.flatMap fun n => scalars.map fun scalar => scalar.2 ++ "vec" ++ n

/-- Matrix types of the two floating-point scalars: square ones by their size, and all by columns
and rows. -/
def matrices : List String :=
  sizes.flatMap fun n => ["", "d"].flatMap fun mark =>
    (mark ++ "mat" ++ n) :: sizes.map fun rows => mark ++ "mat" ++ n ++ "x" ++ rows

/-- Texture sampler types. -/
def samplers : List String :=
  ["sampler1D", "sampler2D", "sampler3D", "samplerCube", "sampler2DRect", "sampler1DShadow",
    "sampler2DShadow", "samplerCubeShadow", "sampler2DArray", "isampler2D", "usampler2D",
    "samplerExternalOES"]

/-- The type of a function that returns nothing. -/
def voidType : String := "void"

/-- Every builtin type. -/
def types : List String :=
  voidType :: scalars.map (·.1) ++ vectors ++ matrices ++ samplers

/-- The words of the language that are not types, and the name of a stage's entry point. -/
def keywords : List String :=
  ["attribute", "const", "uniform", "varying", "buffer", "shared", "layout", "centroid", "flat",
    "smooth", "noperspective", "patch", "sample", "break", "continue", "do", "for", "while",
    "switch", "case", "default", "if", "else", "subroutine", "in", "out", "inout", "true", "false",
    "invariant", "precise", "discard", "return", "struct", "precision", "lowp", "mediump", "highp",
    "common", "partition", "active", "asm", "class", "union", "enum", "typedef", "template",
    "this", "goto", "inline", "noinline", "volatile", "public", "static", "extern", "external",
    "interface", "long", "short", "half", "fixed", "unsigned", "superp", "input", "output",
    "sizeof", "main"]

/-- Whether a word is a builtin type. -/
def isType (word : String) : Bool := types.contains word

/-- Every word that is reserved. -/
def reservedWords : List String := types ++ keywords

/-- Whether a word is reserved. -/
def isReserved (word : String) : Bool := reservedWords.contains word

/-- A builtin type is reserved. -/
theorem isReserved_of_isType {word : String} (h : isType word = true) : isReserved word = true := by
  simp only [isType, isReserved, reservedWords, List.contains_eq_mem, decide_eq_true_eq,
    List.mem_append] at h ⊢
  exact Or.inl h

example : isType "dmat3x4" = true ∧ isType "vec5" = false := by decide +kernel

end Glsl

end ShaderLink
