set_option autoImplicit false

namespace JvmEdit

namespace Path

-- Everything between slashes, empty names and dots among it.
def names (path : String) : List String := path.splitOn "/"

def isAbsolute (path : String) : Bool := path.startsWith "/"

-- The names that count: a leading dot does, later dots and repeated slashes do not.
def parts (path : String) : List String :=
  let counted := (names path).filter fun name => name ≠ "" && name ≠ "."
  if (names path).head? = some "." then "." :: counted else counted

-- A name below a path; an absolute name stands for itself.
def join (path name : String) : String :=
  if isAbsolute name || path = "" then name
  else if path.endsWith "/" then path ++ name
  else path ++ "/" ++ name

-- Drops the names at the front that do not count.
def dropUncounted (names : List String) : List String :=
  names.dropWhile fun name => name = "" || name = "."

def parent? (path : String) : Option String :=
  match names path with
  | [] => none
  | first :: rest =>
      match dropUncounted rest.reverse with
      | [] => if first = "" then none else some ""
      | _ :: above =>
          match dropUncounted above with
          | [] => some (if first = "" then "/" else first)
          | above => some (String.intercalate "/" (first :: above.reverse))

-- The last part, unless it only points somewhere.
def fileName? (path : String) : Option String :=
  (parts path).getLast?.filter fun name => name ≠ "." && name ≠ ".."

-- What follows the last dot of the file's name; a dot in front makes a hidden name instead.
def extension? (path : String) : Option String :=
  (fileName? path).bind fun name =>
    match name.toList.reverse.span (· ≠ '.') with
    | (_, []) => none
    | (_, [_]) => none
    | (reversed, _) => some (String.ofList reversed.reverse)

end Path

end JvmEdit
