import Assay.Assertion.Instrument
import Assay.Command.Invocation
import Assay.Coverage.Options
import Assay.Json.Reader

/-!
# Configuration

What a configuration file sets. An option on the command line outweighs it.
-/

namespace Assay.Command

structure Config where
  ignore : Option String
  dependencyDirs : Option (List String)
  root : Option String
  callee : Option String
  deriving DecidableEq, Repr

namespace Config

/-- The file that is read if no other is named. -/
def fileName : String := "luna.config.json"

def empty : Config := ⟨none, none, none, none⟩

def ofJson? (j : Json) : Option Config :=
  match Json.slots? ["ignore", "dependencyDirs", "root", "callee"] j with
  | some [ignore, dirs, root, callee] => do
    return {
      ignore := ← Json.orElse? (Json.nullable? Json.text?) none ignore
      dependencyDirs := ← Json.orElse? (Json.nullable? (Json.list? Json.text?)) none dirs
      root := ← Json.orElse? (Json.nullable? Json.text?) none root
      callee := ← Json.orElse? (Json.nullable? Json.text?) none callee }
  | _ => none

def ofText? (text : String) : Option Config := (Json.read? text.toList).bind ofJson?

def calleeFor (c : Config) (a : InstrumentArguments) : String :=
  (a.callee.or c.callee).getD defaultCallee

def coverageOptions (c : Config) (a : CoverageArguments) : Coverage.Options where
  ignore := a.ignore.or c.ignore
  dependencyDirs := c.dependencyDirs.getD Coverage.Options.default.dependencyDirs
  root := a.root.or c.root

end Config

end Assay.Command
