/-! Titled lists of named parts, as debug lines show them: on one line, or one part a line. -/
namespace PipelineCache.Text

def onOneLine (title : String) (parts : List (String × String)) : String :=
  let shown := parts.map fun (name, value) => name ++ ": " ++ value
  title ++ " \x7b " ++ ", ".intercalate shown ++ " \x7d"

/-- Moves all lines but the first four columns to the right. -/
def indented (s : String) : String :=
  String.ofList (s.toList.flatMap fun c => if c = '\n' then ['\n', ' ', ' ', ' ', ' '] else [c])

def onManyLines (title : String) (parts : List (String × String)) : String :=
  title ++ " \x7b" ++ String.join (parts.map fun (name, value) =>
    "\n    " ++ name ++ ": " ++ indented value ++ ",") ++ "\n\x7d"

def outline (wide : Bool) : String → List (String × String) → String :=
  if wide then onManyLines else onOneLine

end PipelineCache.Text
