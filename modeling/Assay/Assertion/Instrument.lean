import Assay.Assertion.Scan
import Assay.Assertion.Statement
import Assay.Edit.Basic
import Assay.SourceMap.Document
import Assay.Text.Search

/-!
# Instrumenting assertions

Every assertion statement of a script that can be read as an assertion is replaced; the others
stay. The instrumented ones are numbered from 1 in the order of the script. A script of 2^32 bytes
or more is refused. The callee may be any text that is not blank: a pattern that is too long for an
engine of regular expressions is not accounted for.
-/

namespace Assay

def defaultCallee : String := "t.assert"

inductive InstrumentError where
  | emptyCallee
  | sourceTooLarge (bytes : Nat)
  deriving DecidableEq, Repr

def InstrumentError.message : InstrumentError → String
  | emptyCallee => "assertion callee must not be empty"
  | sourceTooLarge bytes => "source is too large to rewrite (" ++ toString bytes ++ " bytes)"

structure Instrumented where
  code : List Char
  /-- From the instrumented script back to its source. -/
  offsets : OffsetMap
  count : Nat

namespace Instrumented

def sourceMap (r : Instrumented) (source : List Char) (file : String) : SourceMap :=
  r.offsets.toSourceMap r.code source file

def codeWithMap (r : Instrumented) (source : List Char) (file : String) : List Char :=
  let newline := if r.code.getLast? = some '\n' then [] else ['\n']
  r.code ++ newline ++ (r.sourceMap source file).toInline.toList ++ ['\n']

end Instrumented

namespace Instrument

def positionAt (source : List Char) (lines : LineIndex) (byte : Nat) : Position :=
  (lines.position? (Text.units (Text.splitAtByte byte source).1)).getD .origin

/-- The descriptors of those statements that are assertions. -/
def described (parser : ModuleParser) (source : List Char) (file : String)
    (statements : List Scan.Match) : List (Scan.Match × Descriptor) :=
  let lines := LineIndex.ofText source
  statements.filterMap fun m =>
    match describe parser m.text file (positionAt source lines m.start) with
    | .ok d => some (m, d)
    | .error _ => none

def edits (callee : String) (index : Nat) : List (Scan.Match × Descriptor) → List Edit
  | [] => []
  | (m, d) :: rest =>
    ⟨m.start, m.stop, d.replacement callee ⟨index⟩⟩ :: edits callee (index + 1) rest

/-- Instruments a script; `none` if no assertion was found. -/
def script (parser : ModuleParser) (callee : String) (source : List Char) (file : String) :
    Option Instrumented :=
  let found := described parser source file (Scan.statements callee.toList source)
  if found.isEmpty then none
  else
    let (code, offsets) := Edit.apply (edits callee 1 found) source
    some ⟨code, offsets, found.length⟩

def sizedScript (parser : ModuleParser) (callee : String) (source : List Char) (file : String) :
    Except InstrumentError (Option Instrumented) :=
  if Text.bytes source < 0x100000000 then .ok (script parser callee source file)
  else .error (.sourceTooLarge (Text.bytes source))

def callee? (callee : String) : Except InstrumentError String :=
  if (Text.trim callee.toList).isEmpty then .error .emptyCallee else .ok callee

end Instrument

def instrument (parser : ModuleParser) (callee : String) (source : List Char) (file : String) :
    Except InstrumentError (Option Instrumented) :=
  (Instrument.callee? callee).bind fun callee => Instrument.sizedScript parser callee source file

end Assay
