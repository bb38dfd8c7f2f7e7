set_option autoImplicit false

namespace JvmEdit

-- The types that the parser of descriptors tells apart, as far as their stack slots go.
inductive ValueType
  | void
  | long
  | double
  | other
  deriving DecidableEq, Repr, Inhabited

-- A file in an archive, with what reading it gives.
structure ArchiveEntry where
  name : String
  size : Nat
  content? : Option (List UInt8)
  deriving DecidableEq, Repr, Inhabited

-- Code that the program calls and that is not part of it. Nothing is supposed of what it answers.
class Libraries where
  -- The types of the parameters and of the result.
  methodTypes? : String → Option (List ValueType × ValueType)
  -- What is wrong with the bytes of a class file, if anything is.
  classFileFault? : List UInt8 → Option String
  -- A row for each file, in the order of the archive. Files are found by their names, so that no two
  -- rows have the same one.
  openArchive : List UInt8 → Except String (List (Except String ArchiveEntry))
  -- The bytes of an archive of the files, or the name of the first file that is not taken.
  packArchive : List (String × List UInt8) → Except String (List UInt8)

end JvmEdit
