namespace OpcodeTable

inductive Entry
  | file (bytes : List UInt8)
  | directory
  deriving DecidableEq

inductive ReadError
  | absent | notDirectory | isDirectory | nameTooLong
  | zeroInPath
  | other (number : Nat) (text : String)
  deriving DecidableEq, Repr

namespace ReadError

def numbered (number : Nat) (text : String) : String :=
  text ++ " (os error " ++ number.repr ++ ")"

def message : ReadError → String
  | absent => numbered 2 "No such file or directory"
  | notDirectory => numbered 20 "Not a directory"
  | isDirectory => numbered 21 "Is a directory"
  | nameTooLong => numbered 36 "File name too long"
  | zeroInPath => "file name contained an unexpected NUL byte"
  | other number text => numbered number text

def ofNumber (number : Nat) (text : String) : ReadError :=
  match number with
  | 2 => absent
  | 20 => notDirectory
  | 21 => isDirectory
  | 36 => nameTooLong
  | _ => other number text

end ReadError

abbrev Directory := List (String × Entry)

namespace Directory

/-- Where a path has led: names below the directory, or somewhere above it. -/
inductive Place
  | above
  | below (names : List String)
  deriving DecidableEq, Repr

/-- What is found at a place. Above the directory there is nothing but directories. -/
def entry? (d : Directory) : Place → Option Entry
  | .above => some .directory
  | .below [] => some .directory
  | .below names =>
    let path := "/".intercalate names
    match d.lookup path with
    | some e => some e
    | none => if d.any fun e => (path ++ "/").isPrefixOf e.1 then some .directory else none

def nameLimit : Nat := 255

def pathLimit : Nat := 4096

def follow (d : Directory) (p : Place) (name : String) : Except ReadError Place :=
  match d.entry? p with
  | none => .error .absent
  | some (.file _) => .error .notDirectory
  | some .directory =>
    if name = "" ∨ name = "." then .ok p
    else if nameLimit < name.utf8ByteSize then .error .nameTooLong
    else
      match p, name with
      | .above, ".." => .ok .above
      | .above, _ => .error .absent
      | .below [], ".." => .ok .above
      | .below names, ".." => .ok (.below names.dropLast)
      | .below names, _ => .ok (.below (names ++ [name]))

def read (d : Directory) (path : String) : Except ReadError (List UInt8) :=
  if path.toList.contains '\x00' then .error .zeroInPath
  else if path = "" then .error .absent
  else if pathLimit ≤ path.utf8ByteSize then .error .nameTooLong
  else
    let start := if path.toList.head? = some '/' then Place.above else Place.below []
    match ((path.toList.splitOn '/').map String.ofList).foldlM d.follow start with
    | .error e => .error e
    | .ok place =>
      match d.entry? place with
      | none => .error .absent
      | some .directory => .error .isDirectory
      | some (.file bytes) => .ok bytes

end Directory

end OpcodeTable
