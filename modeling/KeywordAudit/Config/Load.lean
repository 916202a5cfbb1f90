import KeywordAudit.Config.Schema
import KeywordAudit.FileTree
import KeywordAudit.Toml.Decoder
import KeywordAudit.Yaml.Decoder

/-!
# Configuration files

A configuration is written in YAML or TOML.  The extension of the file tells which; without one
that is known, YAML is tried before TOML.
-/

namespace KeywordAudit

/-- The language of a configuration file. -/
inductive ConfigLanguage where
  | yaml
  | toml
  /-- One of the two. -/
  | either
deriving DecidableEq, Repr, Inhabited

/-- The language that a path tells. -/
def ConfigLanguage.ofPath (path : String) : ConfigLanguage :=
  match pathExtension path with
  | "yml" | "yaml" => .yaml
  | "toml" => .toml
  | _ => .either

/-- Why a configuration cannot be loaded. -/
inductive ConfigError where
  | unreadable (path : String) (cause : FileError)
  | malformed (language : ConfigLanguage)
deriving DecidableEq, Repr, Inhabited

/-- The wording of the error, from the outermost message to its cause. -/
def ConfigError.messages : ConfigError → List String
  | unreadable path cause => [s!"Failed to read config file: {path}", cause.message]
  | malformed .yaml => ["Failed to parse YAML config"]
  | malformed .toml => ["Failed to parse TOML config"]
  | malformed .either => ["Failed to parse config file"]

namespace Config

/-- Reads a configuration in a language. -/
def parse? (language : ConfigLanguage) (content : String) : Option Config :=
  match language with
  | .yaml => Yaml.read? Config.reader content
  | .toml => Toml.read? Config.reader content
  | .either =>
    match Yaml.read? Config.reader content with
    | some config => some config
    | none => Toml.read? Config.reader content

/-- Loads a configuration file. -/
def load (files : FileTree) (path : String) : Except ConfigError Config :=
  match files.read path with
  | .error cause => .error (.unreadable path cause)
  | .ok content =>
    let language := ConfigLanguage.ofPath path
    match parse? language content with
    | some config => .ok config
    | none => .error (.malformed language)

/-- The files that are looked for where none is named. -/
def defaultNames : List String :=
  [".keywordtrace.yml", ".keywordtrace.yaml", ".keywordtrace.toml",
    "keywordtrace.yml", "keywordtrace.yaml", "keywordtrace.toml"]

/-- A name inside of a directory. -/
def inDirectory (directory name : String) : String :=
  if directory = "" then name
  else if directory.endsWith "/" then directory ++ name
  else directory ++ "/" ++ name

/-- Loads the first file with a default name that exists in a directory; without any, everything
has its default. -/
def loadDefault (files : FileTree) (directory : String) : Except ConfigError Config :=
  match (defaultNames.map (inDirectory directory)).find? files.pathExists with
  | some path => load files path
  | none => .ok {}

end Config
end KeywordAudit
