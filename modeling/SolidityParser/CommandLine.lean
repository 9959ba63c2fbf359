import SolidityParser.File

/-!
# The command line

`CommandLine.run` answers a list of arguments with what is printed and the exit code. Arguments are
read in order: options and paths may be mixed, the last choice of what to print wins, and a request
for help or an unknown option ends the reading. Files are all read first and then reported in order;
an error in one does not change the exit code or what is printed for the others.
-/

namespace SolidityParser.CommandLine

/-! ## Arguments -/

/-- What the arguments ask for. -/
inductive Request
  /-- How the program is used. -/
  | usage
  /-- Nothing, since an option is not known. -/
  | unknownOption (option : String)
  /-- What the files hold. -/
  | files (extract : Extract) (options : Options) (paths : List String)
deriving DecidableEq

namespace Request

/-- Reads arguments on from what earlier ones asked for, the last path first. -/
def ofArgumentsFrom (extract : Extract) (options : Options) (paths : List String) :
    List String → Request
  | [] => if paths.isEmpty then usage else files extract options paths.reverse
  | argument :: rest =>
    match argument with
    | "--imports" => ofArgumentsFrom .imports options paths rest
    | "--comments" => ofArgumentsFrom .comments options paths rest
    | "--tolerant" => ofArgumentsFrom extract { options with tolerant := true } paths rest
    | "--range" => ofArgumentsFrom extract { options with range := true } paths rest
    | "--loc" => ofArgumentsFrom extract { options with loc := true } paths rest
    | "-h" | "--help" => usage
    | other =>
      if "--".toList.isPrefixOf other.toList then unknownOption other
      else ofArgumentsFrom extract options (other :: paths) rest

/-- What a list of arguments asks for. -/
def ofArguments (arguments : List String) : Request :=
  ofArgumentsFrom .program {} [] arguments

end Request

/-! ## Output -/

/-- What a run of the program leaves behind. -/
structure Output where
  /-- What is printed as the result. -/
  stdout : String := ""
  /-- What is printed about errors. -/
  stderr : String := ""
  /-- The exit code. -/
  code : UInt32 := 0
deriving DecidableEq, Inhabited

/-- How the program is used. -/
def usageText : String :=
  "Solidity Parser: file...\n" ++
  "\n" ++
  "Usage: solp [options] <file.sol>...\n" ++
  "\n" ++
  "Options:\n" ++
  "  --imports     Print only the paths of import directives\n" ++
  "  --comments    Print only the comments\n" ++
  "  --tolerant    Recover from broken statements inside function bodies\n" ++
  "  --range       Add \"range\": [start, end] to every node\n" ++
  "  --loc         Add \"loc\" line/column positions to every node\n" ++
  "\n" ++
  "Set RUST_LOG (e.g. RUST_LOG=sol_parse=debug) for trace output on stderr.\n"

/-- A location as JSON. -/
def locationToJson (location : Location) : Json :=
  .object [("line", .ofNat location.line), ("column", .ofNat location.column),
    ("offset", .ofNat location.offset)]

/-- What is printed about an error in a file: where it is, if that is known, and the error. -/
def errorText (error : FileError) : String :=
  match error.location? with
  | some location =>
    "Location: " ++ (locationToJson location).pretty "    " ++ "\n" ++ error.text ++ "\n"
  | none => error.name ++ ": " ++ error.message ++ "\n"

/-- The output so far, followed by that for one more file. -/
def Output.report (options : Options) (output : Output) :
    Except FileError SourceFile → Output
  | .ok file => { output with stdout := output.stdout ++ (file.toJson options).pretty "  " ++ "\n" }
  | .error error => { output with stderr := output.stderr ++ errorText error }

/-! ## Runs -/

/-- What a list of arguments is answered with. `readFile` gives the bytes of a file, or the reason
why it cannot be read. -/
def run {m : Type → Type} [Monad m] (readFile : String → m (Except String ByteArray))
    (arguments : List String) : m Output :=
  match Request.ofArguments arguments with
  | .usage => pure { stdout := usageText }
  | .unknownOption option =>
    pure
      { stdout := usageText, stderr := "error: unknown option '" ++ option ++ "'\n\n", code := 1 }
  | .files extract options paths => do
    let results ← paths.mapM fun path => do
      return SourceFile.ofBytes extract options path (← readFile path)
    return results.foldl (Output.report options) {}

end SolidityParser.CommandLine
