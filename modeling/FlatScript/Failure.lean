import FlatScript.ParseError
import FlatScript.RuntimeError
import FlatScript.SymbolTable

namespace FlatScript

inductive FileError
  | notFound
  | isDirectory
  | invalidText
  | other (description : String)
deriving DecidableEq, Repr

def FileError.message : FileError → String
  | .notFound => "No such file or directory (os error 2)"
  | .isDirectory => "Is a directory (os error 21)"
  | .invalidText => "stream did not contain valid UTF-8"
  | .other description => description

inductive Failure
  | parse (e : ParseError)
  | resolve (e : ResolveError)
  | runtime (e : RuntimeError)
  | file (e : FileError)
deriving DecidableEq, Repr

def Failure.message : Failure → String
  | .parse e => "Parse error: " ++ e.message
  | .resolve e => "Resolution error: " ++ e.message
  | .runtime e => "Runtime error: " ++ e.message
  | .file e => "I/O error: " ++ e.message

end FlatScript
