import Placeholder.Document.Json
import Placeholder.Files.Path
import Placeholder.Files.Storage
import Placeholder.Toml.Reader
import Placeholder.Yaml.Reader
/-!
Project models: documents in one of three formats, told apart by the extension of the file.
-/
namespace Placeholder

def DataFormat.ofExtension? (extension : Text) : Option DataFormat :=
  if extension = "json".toList then some .json
  else if extension = "toml".toList then some .toml
  else if extension = "yaml".toList || extension = "yml".toList then some .yaml
  else none

namespace Model

/-- Under these prefixes a model answers if nothing else is said. -/
def standardPrefixes : List Text :=
  ["project.".toList, "pom.".toList]

def ofToml (path : Text) (value : Toml) : Except Failure Document :=
  value.toDocument.mapError fun number => .unconvertibleNumber path number.nonFiniteName

def parse (path content : Text) (format : DataFormat) : Except Failure Document :=
  let malformed : Except Failure Document := .error (.malformedData path format)
  match format with
  | .json => ((Json.read? content).map .ok).getD malformed
  | .toml => (((TomlFile.read? content).bind Toml.Written.toToml?).map (ofToml path)).getD malformed
  | .yaml => ((YamlFile.read? content).map .ok).getD malformed

def ofText (path content extension : Text) : Except Failure Document :=
  match DataFormat.ofExtension? extension with
  | some format => parse path content format
  | none => .error (.unsupportedFormat extension)

def ofRead (file : FileRead) : Except Failure Document := do
  let content ← file.data
  ofText file.path content (Path.extension file.path)

end Model

end Placeholder
