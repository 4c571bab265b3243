/-! What can stop a run. Every error names the node or the thing at fault. A target that does
not exist yet is no error: operations wait for it. -/
namespace ProceduralScene

inductive EvalError where
  | unknownRootNoun (description noun : String)
  | unknownNoun (astId description noun : String)
  | unknownOperation (astId identifier : String)
  | unknownVariable (astId name : String)
  | noCaseMatched (astId selector : String)
  | forkInSynchronousEvaluation (astId : String)
  | unknownEntityType (typeName : String)
  | typeMismatch (astId message : String)
  | payloadMismatch (astId operation expected found : String)
  | invalidParameter (astId operation : String) (index : Nat) (message : String)
  | invalidProgram (astId message : String)
  | alreadyRunning
  | notStarted
  | staleResumption
  | halted
  deriving DecidableEq, Inhabited

namespace EvalError

def quoted (s : String) : String := "\"" ++ s ++ "\""

def atNode (astId : String) : String := " (node " ++ astId ++ ")"

def message : EvalError → String
  | unknownRootNoun description noun =>
    "unknown noun " ++ quoted noun ++ " at description " ++ quoted description
  | unknownNoun astId description noun =>
    "unknown noun " ++ quoted noun ++ " from description " ++ quoted description ++ atNode astId
  | unknownOperation astId identifier => "unknown operation " ++ quoted identifier ++ atNode astId
  | unknownVariable astId name => "unknown variable " ++ quoted name ++ atNode astId
  | noCaseMatched astId selector => "no case matched selector " ++ selector ++ atNode astId
  | forkInSynchronousEvaluation astId =>
    "unable to compute parallel values in synchronous evaluation" ++ atNode astId
  | unknownEntityType typeName => "unknown entity type " ++ quoted typeName
  | typeMismatch astId message => "type mismatch: " ++ message ++ atNode astId
  | payloadMismatch astId operation expected found =>
    "operation " ++ quoted operation ++ " expects " ++ expected ++ ", got " ++ found
      ++ atNode astId
  | invalidParameter astId operation index message =>
    "operation " ++ quoted operation ++ " parameter " ++ toString index ++ ": " ++ message
      ++ atNode astId
  | invalidProgram astId message => "invalid program: " ++ message ++ atNode astId
  | alreadyRunning => "unable to interprete while interpretation is already running"
  | notStarted =>
    "unable to update requested progress when interpretation has not yet been started"
  | staleResumption => "resumption is no longer valid"
  | halted => "interpretation halted by an earlier error"

end EvalError

/-- How an evaluation can fail to answer: by an error of the program, or because it nests
deeper, or runs longer, than the given fuel. -/
inductive Fault where
  | error (error : EvalError)
  | outOfFuel
  deriving DecidableEq, Inhabited

end ProceduralScene
