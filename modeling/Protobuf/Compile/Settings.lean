/-! How generated files are named and laid out. -/
namespace Protobuf

structure Settings where
  /-- Joins the parts of a package to a namespace. -/
  namespaceSeparator : String := "_"
  /-- Stands in front of every file name. -/
  fileNameStart : String := "pb_proto_"
  /-- The directory to write to. -/
  destination : String := "./"
  verbose : Bool := false
  /-- One file for each top-level type, in a directory for each part of its package, instead of one
  file for each package. -/
  filePerType : Bool := false
  /-- Whether imported files are generated too. -/
  includeImports : Bool := false
  deriving DecidableEq, Repr, Inhabited

/-- The usual settings, but with backslashes in namespaces. -/
def Settings.withNamespaces : Settings :=
  { namespaceSeparator := "\\" }

end Protobuf
