import SolidityParser.CommandLine

/-!
# The program

Reads the files that the command line names and prints what is found in them.
-/

namespace SolidityParser.CommandLine

/-- The system's number of an error, which is reported with either sign. -/
def systemNumber (code : UInt32) : UInt32 := if code < 0x80000000 then code else 0 - code

/-- The system's words for the error of a number, where they are not those that come with it. -/
def systemWords? : UInt32 → Option String
  | 5 => some "Input/output error"
  | 12 => some "Cannot allocate memory"
  | 23 => some "Too many open files in system"
  | 36 => some "File name too long"
  | 40 => some "Too many levels of symbolic links"
  | _ => none

/-- The system's words, with a capital at their front, and the number of the error. -/
def worded (code : UInt32) (details : String) : String :=
  let number := systemNumber code
  (systemWords? number).getD details.capitalize ++ " (os error " ++ toString number ++ ")"

/-- What is said of an error of the system. -/
def systemText : IO.Error → String
  | .noFileOrDirectory _ code details => worded code details
  | .permissionDenied _ code details => worded code details
  | .inappropriateType _ code details => worded code details
  | .invalidArgument _ code details => worded code details
  | .resourceExhausted _ code details => worded code details
  | .noSuchThing _ code details => worded code details
  | .hardwareFault code details => worded code details
  | .unsupportedOperation code details => worded code details
  | .otherError code details => worded code details
  | error => toString error

/-- The bytes of a file, or the reason why it cannot be read. -/
def readFile (path : String) : IO (Except String ByteArray) := do
  try
    return .ok (← IO.FS.readBinFile path)
  catch error =>
    return .error (systemText error)

end SolidityParser.CommandLine

/-- Prints what the command line asks for. -/
def main (arguments : List String) : IO UInt32 := do
  let output ← SolidityParser.CommandLine.run SolidityParser.CommandLine.readFile arguments
  (← IO.getStdout).putStr output.stdout
  (← IO.getStderr).putStr output.stderr
  return output.code
