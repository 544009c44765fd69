import Reckon.Text.Quoted

/-! Files by path. A path is followed name by name from the place of work, so each name but the last
must be that of a folder, also where a later step leads back out of it. -/
namespace Reckon

/-- Files by path, relative to the place of work. Nothing is known to be outside of that place. -/
abbrev Folder := List (String × ByteArray)

inductive Unreadable where
  | missing
  | notFolder
  | isFolder
  | nameTooLong
deriving DecidableEq, Repr

def Unreadable.message (path : String) : Unreadable → String
  | missing => "[Errno 2] No such file or directory: " ++ Text.quoted path
  | notFolder => "[Errno 20] Not a directory: " ++ Text.quoted path
  | isFolder => "[Errno 21] Is a directory: " ++ Text.quoted path
  | nameTooLong => "[Errno 36] File name too long: " ++ Text.quoted path

abbrev Files := String → Except Unreadable ByteArray

namespace Folder

def splitPath : List Char → List (List Char)
  | [] => [[]]
  | c :: rest =>
    match splitPath rest with
    | [] => [[c]]
    | part :: parts => if c = '/' then [] :: part :: parts else (c :: part) :: parts

def names (path : String) : List (List Char) :=
  (splitPath path.toList).filter fun part => part != [] && part != ['.']

inductive Place where
  | inside (names : List (List Char))
  | outside
deriving DecidableEq, Repr

def Place.ofPath (path : String) : Place :=
  if path.toList.head? = some '/' then outside else inside []

def Place.parent : Place → Place
  | inside [] => outside
  | inside names => inside names.dropLast
  | outside => outside

def nameLimit : Nat := 255

def pathLimit : Nat := 4095

def file? (folder : Folder) (path : List (List Char)) : Option ByteArray :=
  (folder.find? fun file => names file.1 == path).map (·.2)

def isFolder (folder : Folder) (path : List (List Char)) : Bool :=
  folder.any fun file => path.isPrefixOf (names file.1)

def follow (folder : Folder) : Place → List (List Char) → Except Unreadable ByteArray
  | _, [] => .error .isFolder
  | place, name :: rest =>
    if name = ['.', '.'] then follow folder place.parent rest
    else if nameLimit < (String.ofList name).utf8ByteSize then .error .nameTooLong
    else
      match place with
      | .outside => .error .missing
      | .inside above =>
        match file? folder (above ++ [name]) with
        | some bytes => if rest = [] then .ok bytes else .error .notFolder
        | none =>
          if isFolder folder (above ++ [name]) then follow folder (.inside (above ++ [name])) rest
          else .error .missing

def files (folder : Folder) : Files := fun path =>
  if pathLimit < path.utf8ByteSize then .error .nameTooLong
  else follow folder (.ofPath path) (names path)

end Folder
end Reckon
