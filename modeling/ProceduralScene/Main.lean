import ProceduralScene.CommandLine

/-! The program: it reads the files that its arguments name and prints the answer. -/
namespace ProceduralScene.CommandLine

/-- More advances and deeper nesting than any run comes to. -/
def enough : Nat := 0x4000000000000000

def readDocument (path : String) : IO (Option Json.Document) := do
  try
    return some (Json.ofText (← IO.FS.readFile path))
  catch _ => return none

def pathsOf : Option Request → List String
  | some (.run options) => options.program :: options.config.toList
  | _ => []

end ProceduralScene.CommandLine

open ProceduralScene in
def main (arguments : List String) : IO UInt32 := do
  let request := CommandLine.request? arguments
  let documents ← (CommandLine.pathsOf request).mapM fun path => do
    return (path, ← CommandLine.readDocument path)
  let result := CommandLine.answer CommandLine.enough .still
    (fun path => (lookupKey path documents).join) request
  for line in result.lines do
    IO.println line
  return UInt32.ofNat result.status
