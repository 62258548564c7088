import CodeAtlas.Path
import CodeAtlas.Text.Case

/-!
# Languages

The language of a file, told by the extension of its name in any case of its letters.
-/

namespace CodeAtlas.Language

/-- Extensions and their languages. -/
def byExtension : List (String × String) :=
  [("ts", "typescript"), ("tsx", "typescript"), ("mts", "typescript"), ("cts", "typescript"),
    ("js", "javascript"), ("jsx", "javascript"), ("mjs", "javascript"), ("cjs", "javascript"),
    ("py", "python"), ("pyi", "python"), ("rs", "rust"), ("go", "go"), ("java", "java"),
    ("kt", "kotlin"), ("kts", "kotlin"), ("rb", "ruby"), ("php", "php"), ("c", "c"), ("h", "c"),
    ("cc", "cpp"), ("cpp", "cpp"), ("cxx", "cpp"), ("hpp", "cpp"), ("hh", "cpp"),
    ("cs", "csharp"), ("swift", "swift"), ("scala", "scala")]

def detect (path : String) : Option String :=
  (Path.extension? path).bind fun ext => byExtension.lookup (Text.lowerWord ext)

end CodeAtlas.Language
