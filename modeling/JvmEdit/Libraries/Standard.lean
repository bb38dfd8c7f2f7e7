import JvmEdit.Libraries.Descriptor
import JvmEdit.Libraries.Layout
import JvmEdit.Libraries.Zip
set_option autoImplicit false

namespace JvmEdit

-- Stands for the libraries where the program is run.
instance Libraries.standard : Libraries where
  methodTypes? := Descriptor.methodTypes?
  classFileFault? bytes := if Layout.isClassFile bytes then none else some "<validator>"
  openArchive bytes :=
    match Zip.open? bytes with
    | some archive => .ok archive.rows
    | none => .error "invalid Zip archive"
  packArchive := Zip.pack

end JvmEdit
