import Reckon.Folder
import Reckon.Run

/-! Scripts: texts kept in files. A script is named by its path, holds UTF-8, and may end its lines
in any of the usual ways. -/
namespace Reckon

inductive ScriptError where
  | notScript
  | nullName
  | unreadable (name : String) (cause : Unreadable)
  | notText
  | halt (halt : Halt)
deriving DecidableEq, Repr

def ScriptError.message? : ScriptError → Option String
  | notScript => some "Only .lox files are supported."
  | nullName => some "embedded null byte"
  | unreadable name cause => some (cause.message name)
  | notText => none
  | halt _ => none

namespace Script

def unifyNewlines : List Char → List Char
  | [] => []
  | '\r' :: '\n' :: rest => '\n' :: unifyNewlines rest
  | c :: rest => (if c = '\r' then '\n' else c) :: unifyNewlines rest

def load (files : Files) (name : String) : Except ScriptError String :=
  if !".lox".toList.isSuffixOf name.toList then .error .notScript
  else if name.toList.contains '\x00' then .error .nullName
  else
    match files name with
    | .error cause => .error (.unreadable name cause)
    | .ok bytes =>
      match String.fromUTF8? bytes with
      | none => .error .notText
      | some text => .ok (String.ofList (unifyNewlines text.toList))

end Script

def run (o : Options) (files : Files) (isText : Bool) (source : String) :
    String × Except ScriptError (List Number) :=
  match if isText then .ok source else Script.load files source with
  | .error e => ("", .error e)
  | .ok text =>
    let (output, values) := runText o text
    (output, values.mapError .halt)

end Reckon
