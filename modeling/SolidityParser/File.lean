import SolidityParser.Render.Decoration
import SolidityParser.Source

/-!
# Files

Reading a file's bytes as a source, and taking from it what is asked for: its tree, the paths it
imports, or its comments. Whatever stands in the way is a `FileError`, which has a name, a message
and, where a tree was asked for, a location.
-/

namespace SolidityParser

/-- What is taken from a file. -/
inductive Extract
  | program
  | imports
  | comments
deriving DecidableEq, Inhabited

/-- How a file is read and shown. -/
structure Options where
  /-- Are statements that cannot be read skipped? Only where the tree is taken. -/
  tolerant : Bool := false
  /-- Are nodes shown with their ranges? -/
  range : Bool := false
  /-- Are nodes shown with their lines and columns? -/
  loc : Bool := false
deriving DecidableEq, Inhabited

/-- What was taken from a file. -/
inductive Content
  | program (value : Program)
  | imports (paths : List String)
  | comments (values : List Comment)

/-- A file that was read. -/
structure SourceFile where
  /-- The path. -/
  path : String
  /-- The text. -/
  source : String
  /-- What was taken from it. -/
  content : Content

/-- Why nothing was taken from a file. -/
inductive FileError
  /-- The file could not be read, for a reason the system gave. -/
  | unreadable (path reason : String)
  /-- The source has no tree. -/
  | malformed (error : SyntaxError)
  /-- The imports of the source were not found. -/
  | noImports (error : SyntaxError)
deriving DecidableEq

namespace FileError

/-- The name of the kind of error. -/
def name : FileError → String
  | unreadable .. => "IOError"
  | malformed _ => "SyntaxError"
  | noImports _ => "Error"

/-- The message, without the name. -/
def message : FileError → String
  | unreadable path reason => "cannot read '" ++ path ++ "': " ++ reason
  | malformed error => error.message
  | noImports error => Source.importsErrorText error

/-- The error by itself: the message, and the name where it is a syntax error. -/
def text : FileError → String
  | malformed error => error.text
  | error => error.message

/-- Where the error is, if a tree was asked for. -/
def location? : FileError → Option Location
  | malformed error => some error.location
  | _ => none

end FileError

/-- A comment as a node. -/
def Comment.toJson (comment : Comment) : Json :=
  let type := match comment.kind with
    | .line => "Line"
    | .block => "Block"
  .node type comment.span [("text", .string comment.text)]

namespace Content

/-- What a source holds of what is asked for. -/
def ofSource (extract : Extract) (options : Options) (source : String) :
    Except FileError Content :=
  match extract with
  | .program =>
    match Source.parse source options.tolerant with
    | .ok value => .ok (program value)
    | .error error => .error (.malformed error)
  | .imports =>
    match Source.scanImports source with
    | .ok paths => .ok (imports paths)
    | .error error => .error (.noImports error)
  | .comments => .ok (comments (scanComments source))

/-- The content as JSON. Only the nodes of a tree are decorated. -/
def toJson (decoration : Decoration) : Content → Json
  | program value => value.render decoration
  | imports paths => .array (paths.map .string)
  | comments values => .array (values.map Comment.toJson)

end Content

namespace SourceFile

/-- Why bytes that are not UTF-8 are no source. -/
def notText : String := "stream did not contain valid UTF-8"

/-- Takes what is asked for from a file, given its bytes or the reason why there are none. -/
def ofBytes (extract : Extract) (options : Options) (path : String)
    (bytes : Except String ByteArray) : Except FileError SourceFile :=
  match bytes with
  | .error reason => .error (.unreadable path reason)
  | .ok bytes =>
    match String.fromUTF8? bytes with
    | none => .error (.unreadable path notText)
    | some source =>
      match Content.ofSource extract options source with
      | .error error => .error error
      | .ok content => .ok ⟨path, source, content⟩

/-- The content of a file as JSON. -/
def toJson (options : Options) (file : SourceFile) : Json :=
  file.content.toJson (Decoration.ofSource file.source options.range options.loc)

end SourceFile

end SolidityParser
