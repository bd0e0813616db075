import Mathlib.Init

/-!
# Languages by file extension

`utils/config.rs`.
-/

namespace CodeGraph.Utils.Config

/-- `Path::extension`: what follows the last dot of the file name, unless nothing precedes it. -/
def extension (path : String) : Option String :=
  let name := path.toList.reverse.takeWhile (· ≠ '/')
  match name.dropWhile (· ≠ '.') with
  | [] | [_] => none
  | _ :: _ => some (String.ofList (name.takeWhile (· ≠ '.')).reverse)

/-- `utils::config::detect_language`. -/
def detectLanguage (path : String) : Option String :=
  match extension path with
  | some "rs" => some "rust"
  | some "ts" => some "typescript"
  | some "tsx" => some "tsx"
  | some "js" | some "jsx" | some "mjs" | some "cjs" => some "javascript"
  | some "go" => some "go"
  | some "py" | some "pyi" => some "python"
  | some "java" => some "java"
  | some "c" | some "h" => some "c"
  | some "cpp" | some "cc" | some "cxx" | some "hpp" | some "hh" | some "hxx" => some "cpp"
  | some "html" | some "htm" => some "html"
  | some "css" => some "css"
  | some "cs" => some "csharp"
  | some "kt" | some "kts" => some "kotlin"
  | some "rb" => some "ruby"
  | some "php" => some "php"
  | some "swift" => some "swift"
  | some "dart" => some "dart"
  | some "md" | some "mdx" | some "markdown" => some "markdown"
  | some "sh" | some "bash" => some "bash"
  | some "json" => some "json"
  | _ => none

end CodeGraph.Utils.Config
