import Assay.Text.LineIndex

/-!
# Source maps

A source map lists sources with their texts and a table of tokens in the order of the
generated text. `ofTokens` sorts the table. A `SourceMapError` says why a text holds no map.
-/

namespace Assay

structure Origin where
  /-- Index into the sources. -/
  source : Nat
  line : Nat
  column : Nat
  /-- Index into the names. -/
  name : Option Nat
  deriving DecidableEq, Repr, Inhabited

namespace Origin

def position (o : Origin) : Position := ⟨o.line, o.column⟩

end Origin

/-- A segment of the generated text; without an origin it belongs to no source. -/
structure MapToken where
  generated : Position
  origin : Option Origin
  deriving DecidableEq, Repr, Inhabited

structure SourceMap where
  sources : List String
  contents : List String
  names : List String
  /-- In the order of `generated`. -/
  tokens : List MapToken
  deriving DecidableEq, Repr, Inhabited

namespace SourceMap

/-- The tokens in the order of the generated text; of two at one place the earlier stays first. -/
def sortTokens (tokens : List MapToken) : List MapToken :=
  tokens.mergeSort fun a b => a.generated.le b.generated

def ofTokens (sources contents : List String) (tokens : List MapToken) : SourceMap :=
  ⟨sources, contents, [], sortTokens tokens⟩

def source? (m : SourceMap) (i : Nat) : Option String := m.sources[i]?

def content? (m : SourceMap) (i : Nat) : Option String := m.contents[i]?

end SourceMap

/-! ### Failures -/

inductive SourceMapError where
  | missingInlineMap
  | invalidBase64
  | invalidJson
  | unsupportedVersion (version : Nat)
  /-- The texts are not as many as the sources. -/
  | contentMismatch (sources contents : Nat)
  | missingContent (source : String)
  | invalidMappings (offset : Nat)
  | unknownSource (index : Int)
  /-- A sum went out of the range of its type, which stops the program. -/
  | overflow
  deriving DecidableEq, Repr

namespace SourceMapError

def message : SourceMapError → String
  | missingInlineMap => "no inline source map found"
  | invalidBase64 => "inline source map is not valid base64"
  | invalidJson => "source map is not valid JSON"
  | unsupportedVersion version => "unsupported source map version " ++ toString version
  | contentMismatch sources contents =>
    "source map lists " ++ toString sources ++ " sources but " ++ toString contents ++
      " source texts"
  | missingContent source => "source map has no content for `" ++ source ++ "`"
  | invalidMappings offset => "invalid VLQ mapping data at byte " ++ toString offset
  | unknownSource index => "mapping references unknown source index " ++ toString index
  | overflow => "attempt to add with overflow"

end SourceMapError

end Assay
