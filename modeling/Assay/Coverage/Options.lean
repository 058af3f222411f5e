import Assay.Json.Printer
import Assay.Json.Record
import Assay.Text.Search

/-!
# Coverage options

Which sources are left out of a report, and the directory that relative paths are resolved against.
-/

namespace Assay.Coverage

structure Options where
  /-- Sources whose path holds this text are left out; an empty text leaves nothing out. -/
  ignore : Option String
  /-- Sources whose path holds one of these texts are left out. -/
  dependencyDirs : List String
  root : Option String
  deriving DecidableEq, Repr

namespace Options

def default : Options := ⟨none, ["/node_modules/"], none⟩

def holds (path : String) (fragment : String) : Bool :=
  !fragment.isEmpty && Text.occurs fragment.toList path.toList

def isExcluded (o : Options) (path : String) : Bool :=
  o.ignore.any (holds path) || o.dependencyDirs.any (holds path)

/-- Reads options; a missing field has its default. -/
def ofJson? (j : Json) : Option Options :=
  match Json.slots? ["ignore", "dependencyDirs", "root"] j with
  | some [ignore, dirs, root] => do
    return {
      ignore := ← Json.orElse? (Json.nullable? Json.text?) default.ignore ignore
      dependencyDirs := ← Json.orElse? (Json.list? Json.text?) default.dependencyDirs dirs
      root := ← Json.orElse? (Json.nullable? Json.text?) default.root root }
  | _ => none

def toJson (o : Options) : Json :=
  .object [("ignore", .ofOption .string o.ignore), ("dependencyDirs", Json.strings o.dependencyDirs),
    ("root", .ofOption .string o.root)]

end Options

end Assay.Coverage
