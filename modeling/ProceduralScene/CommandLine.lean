import ProceduralScene.Session.Basic

/-! The command line: a program, a target, and one line per emission. Arguments are read from
left to right, and what is asked for first is done, be it help or a complaint. -/
namespace ProceduralScene.CommandLine

structure Options where
  program : String
  progress : Progress
  config : Option String
  digest : Bool

inductive Request where
  | run (options : Options)
  | help
  | version

structure Reading where
  program : Option String := none
  progress : Option Progress := none
  config : Option String := none
  digest : Bool := false

def name : String := "procgen-run"

def versionLine : String := name ++ " 0.1.0"

def helpLines : List String := [
  "Interpret a procgen program and stream scene snapshots",
  "",
  "Usage: " ++ name ++ " [OPTIONS] --progress <PROGRESS> <PROGRAM>",
  "",
  "Arguments:",
  "  <PROGRAM>  Program JSON: a map of description id to description",
  "",
  "Options:",
  "      --progress <PROGRESS>  Simulated seconds to interpret up to",
  "      --config <CONFIG>      Engine and scene configuration JSON",
  "      --digest               Print the SHA-256 of each result instead of the emission itself",
  "  -h, --help                 Print help",
  "  -V, --version              Print version"]

/-- The double nearest to `digits * 10 ^ exponent`. Far exponents are settled first. -/
def nearest (digits : Nat) (exponent : Int) : Float :=
  if digits = 0 then 0
  else
    let top := exponent + (Nat.toDigits 10 digits).length
    if 400 < top then 1 / 0
    else if top < -400 then 0
    else Float.ofScientific digits (exponent < 0) exponent.natAbs

def decimal? (cs : List Char) : Option (Nat × Int × List Char) :=
  let whole := cs.takeWhile Char.isDigit
  let (decimals, rest) := match cs.dropWhile Char.isDigit with
    | '.' :: rest => (rest.takeWhile Char.isDigit, rest.dropWhile Char.isDigit)
    | rest => ([], rest)
  if whole.isEmpty && decimals.isEmpty then none
  else some (Json.Number.natOf (whole ++ decimals), -Int.ofNat decimals.length, rest)

def exponent? : List Char → Option Int
  | [] => some 0
  | c :: rest =>
    if c = 'e' ∨ c = 'E' then
      let (negative, digits) := match rest with
        | '+' :: digits => (false, digits)
        | '-' :: digits => (true, digits)
        | digits => (false, digits)
      if digits.isEmpty || !digits.all Char.isDigit then none
      else
        let n := Int.ofNat (Json.Number.natOf digits)
        some (if negative then -n else n)
    else none

/-- NaN is a target beyond all others, and with a sign it is one below them all. -/
def magnitude? (negative : Bool) (cs : List Char) : Option Progress :=
  match String.ofList (cs.map Char.toLower) with
  | "inf" | "infinity" => some (.ofFloat (if negative then -1 / 0 else 1 / 0))
  | "nan" => some ⟨if negative then 0xFFF8000000000000 else 0x7FF8000000000000⟩
  | _ => do
    let (digits, scale, rest) ← decimal? cs
    return .ofFloat (Json.Number.signed negative (nearest digits (scale + (← exponent? rest))))

/-- A number of the command line: signed, a point anywhere among the digits, and the names of
infinity and NaN in any case. -/
def number? (s : String) : Option Progress :=
  match s.toList with
  | '+' :: rest => magnitude? false rest
  | '-' :: rest => magnitude? true rest
  | cs => magnitude? false cs

def path? (s : String) : Option String := if s.isEmpty then none else some s

def setProgress (r : Reading) (value : String) : Option Reading := do
  if r.progress.isSome then none else return { r with progress := some (← number? value) }

def setConfig (r : Reading) (value : String) : Option Reading := do
  if r.config.isSome then none else return { r with config := some (← path? value) }

def setProgram (r : Reading) (value : String) : Option Reading := do
  if r.program.isSome then none else return { r with program := some (← path? value) }

def finish (r : Reading) : Option Request := do
  return .run ⟨← r.program, ← r.progress, r.config, r.digest⟩

def plain (r : Reading) : List String → Option Request
  | [] => finish r
  | argument :: rest => do plain (← setProgram r argument) rest

def isValue (argument : String) : Bool := argument = "-" || !argument.startsWith "-"

def read (r : Reading) : List String → Option Request
  | [] => finish r
  | "--" :: rest => plain r rest
  | "--help" :: _ => some .help
  | "--version" :: _ => some .version
  | "--digest" :: rest => if r.digest then none else read { r with digest := true } rest
  | ["--progress"] | ["--config"] => none
  | "--progress" :: value :: rest =>
    if isValue value then do read (← setProgress r value) rest else none
  | "--config" :: value :: rest =>
    if isValue value then do read (← setConfig r value) rest else none
  | argument :: rest =>
    if argument.startsWith "--progress=" then do
      read (← setProgress r (argument.drop 11).toString) rest
    else if argument.startsWith "--config=" then do
      read (← setConfig r (argument.drop 9).toString) rest
    else if isValue argument then do read (← setProgram r argument) rest
    else if argument.startsWith "-h" then some .help
    else if argument.startsWith "-V" then some .version
    else none

def request? (arguments : List String) : Option Request := read {} arguments

structure Result where
  lines : List String
  status : Nat

def usageError : Result := ⟨[], 2⟩

def failure : Result := ⟨[], 1⟩

def line (digest : Bool) (e : Emission) : String :=
  if digest then e.digest else e.toJson.compact

/-- Prints each emission as it comes and polls for the next one. Lines printed before an error
stay. -/
def printing (digest : Bool) (depth : Nat) : Nat → Session.Answer → Result
  | 0, _ => failure
  | _, (.error _, _) => failure
  | _, (.ok none, _) => ⟨[], 0⟩
  | fuel + 1, (.ok (some emission), s) =>
    let rest := printing digest depth fuel (s.poll depth)
    { rest with lines := line digest emission :: rest.lines }

def run (fuel : Nat) (clock : Clock) (options : Options) (program : Json.Document)
    (config : Option Json.Document) : Result :=
  match program.toOption.bind Program.ofJson with
  | none => failure
  | some program =>
    match config.mapM (Settings.ofDocument HostConfig.ofJson) with
    | .error _ => failure
    | .ok config =>
      let session := Session.scene (config.getD {}) clock
      printing options.digest fuel fuel
        (session.handle fuel (.interprete program options.progress))

/-- Answers a request with the files that it names; none of them need exist. -/
def answer (fuel : Nat) (clock : Clock) (file : String → Option Json.Document) :
    Option Request → Result
  | none => usageError
  | some .help => ⟨helpLines, 0⟩
  | some .version => ⟨[versionLine], 0⟩
  | some (.run options) =>
    match file options.program with
    | none => failure
    | some program =>
      match options.config with
      | none => run fuel clock options program none
      | some path =>
        match file path with
        | none => failure
        | some config => run fuel clock options program (some config)

end ProceduralScene.CommandLine
