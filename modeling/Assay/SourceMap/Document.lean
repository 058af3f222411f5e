import Assay.Codec.Base64
import Assay.Json.Printer
import Assay.Json.Reader
import Assay.Json.Record
import Assay.SourceMap.Mappings
import Assay.Text.Search

/-!
# Written source maps

The JSON document of a revision 3 source map, the map it describes, and the comment that carries it
in base64 at the end of a generated text.
-/

namespace Assay

structure MapDocument where
  version : Nat
  file : Option String
  sourceRoot : Option String
  sources : List String
  contents : List (Option String)
  names : List String
  mappings : String
  deriving DecidableEq, Repr

namespace MapDocument

def fieldNames : List String :=
  ["version", "file", "sourceRoot", "sources", "sourcesContent", "names", "mappings"]

def ofJson? (j : Json) : Option MapDocument :=
  match Json.slots? fieldNames j with
  | some [version, file, root, sources, contents, names, mappings] => do
    return {
      version := ← Json.required? Json.word? version
      file := ← Json.orElse? (Json.nullable? Json.text?) none file
      sourceRoot := ← Json.orElse? (Json.nullable? Json.text?) none root
      sources := ← Json.required? (Json.list? Json.text?) sources
      contents := ← Json.orElse? (Json.list? (Json.nullable? Json.text?)) [] contents
      names := ← Json.orElse? (Json.list? Json.text?) [] names
      mappings := ← Json.required? Json.text? mappings }
  | _ => none

/-- The document as JSON; a file or root is written only if there is one. -/
def toJson (d : MapDocument) : Json :=
  let optional (key : String) : Option String → List (String × Json)
    | none => []
    | some value => [(key, .string value)]
  .object <| [("version", .nat d.version)] ++ optional "file" d.file ++
    optional "sourceRoot" d.sourceRoot ++
    [("sources", Json.strings d.sources),
      ("sourcesContent", .array (d.contents.map (Json.ofOption .string))),
      ("names", Json.strings d.names), ("mappings", .string d.mappings)]

def ofMap (m : SourceMap) : MapDocument where
  version := 3
  file := none
  sourceRoot := none
  sources := m.sources
  contents := m.contents.map some
  names := m.names
  mappings := String.ofList (Mappings.encode m.tokens)

/-- The sources below the root, which ends in no slash when it is put before them. -/
def rootedSources (d : MapDocument) : List String :=
  match d.sourceRoot with
  | none => d.sources
  | some root =>
    if root.isEmpty then d.sources
    else
      let trimmed := (root.toList.reverse.dropWhile (· == '/')).reverse
      d.sources.map fun source => String.ofList (trimmed ++ '/' :: source.toList)

/-- The texts of the sources, all of which must be there. -/
def textsOf : List (Option String) → List String → Except SourceMapError (List String)
  | some content :: contents, _ :: sources => do return content :: (← textsOf contents sources)
  | none :: _, source :: _ => .error (.missingContent source)
  | _, _ => .ok []

/-- The map that a document describes, with additions that are checked. -/
def toMap (d : MapDocument) : Except SourceMapError SourceMap := do
  if d.version ≠ 3 then throw (.unsupportedVersion d.version)
  if d.sources.length ≠ d.contents.length then
    throw (.contentMismatch d.sources.length d.contents.length)
  let sources := d.rootedSources
  let contents ← textsOf d.contents sources
  let tokens ← Mappings.decode .checked d.mappings.toList sources.length
  return ⟨sources, contents, d.names, SourceMap.sortTokens tokens⟩

end MapDocument

namespace SourceMap

def ofJson (s : List Char) : Except SourceMapError SourceMap :=
  match (Json.read? s).bind MapDocument.ofJson? with
  | some document => document.toMap
  | none => .error .invalidJson

def toJson (m : SourceMap) : String := (MapDocument.ofMap m).toJson.compact

/-- The marker that a carried map begins with. -/
def marker : List Char := "# sourceMappingURL=data:application/json;charset=utf-8;base64,".toList

def plainMarker : List Char := "# sourceMappingURL=data:application/json;base64,".toList

/-- What follows the last marker of either form in a text. -/
def lastPayload? : List Char → Option (List Char)
  | [] => none
  | c :: r =>
    match lastPayload? r with
    | some payload => some payload
    | none => (Text.after? marker (c :: r)).or (Text.after? plainMarker (c :: r))

def ofInline (s : List Char) : Except SourceMapError SourceMap :=
  match lastPayload? s with
  | none => .error .missingInlineMap
  | some payload =>
    match Base64.decode? (Text.firstWord payload) with
    | none => .error .invalidBase64
    | some bytes =>
      match String.fromUTF8? ⟨bytes.toArray⟩ with
      | none => .error .invalidJson
      | some json => ofJson json.toList

def toInline (m : SourceMap) : String :=
  String.ofList ('/' :: '/' :: marker ++ Base64.encode m.toJson.toUTF8.toList)

end SourceMap

end Assay
