import GrammarCode.Files.Host
import GrammarCode.Files.Path
import GrammarCode.Json.Reader
import GrammarCode.Settings.Document

/-!
# Configuration files

A configuration file is named, or looked for in the working directory. A named file has the
format that its extension says; a file that was found is a YAML document whatever its extension.
No file at all is no error.
-/

namespace GrammarCode.Settings

/-- Why a configuration file gives no settings. -/
inductive ConfigError where
  | unsupported (extension : Bytes)
  | unreadable (e : FileError)
  | noReader
  | malformed (fault : Yaml.Fault)
  | broken (b : Breakdown)
  | misfits (ms : List Misfit)
  | notJson
  | wrongJson
  deriving DecidableEq, Repr

/-- The wording of an error. -/
def ConfigError.message : ConfigError → Bytes
  | .unsupported extension =>
    Bytes.cat ["config: Unsupported Config Type ", Text.quoted extension]
  | .unreadable e => Bytes.cat ["config: ", e.message]
  | .noReader => "config: While parsing config: decoder not found for this format"
  | .malformed fault => Bytes.cat ["config: While parsing config: ", fault.message]
  | .broken b => Bytes.cat ["config: While parsing config: yaml: ", b.message]
  | .misfits ms =>
    Bytes.cat ["config: While parsing config: yaml: unmarshal errors:\n  ",
      Bytes.join "\n  " (ms.map Misfit.message)]
  | .notJson => "config: While parsing config: not a JSON text"
  | .wrongJson => "config: While parsing config: a value has the wrong type"

/-- The settings of a YAML document. -/
def ofYaml (text : Bytes) : Except ConfigError Config :=
  match Yaml.parse text with
  | .error fault => .error (.malformed fault)
  | .ok none => .ok []
  | .ok (some d) =>
    match Reading.root d [] with
    | .error b => .error (.broken b)
    | .ok (entries, ms) => if ms.isEmpty then .ok entries.lowered else .error (.misfits ms)

mutual

/-- The value of a JSON value, if its numbers are in range. -/
def valueOfJson? : Json → Option Value
  | .null => some .null
  | .bool b => some (.truth b)
  | .number text => (Yaml.Scalar.decimal? text).map .real
  | .string s => some (.text s)
  | .array items => (itemsOfJson? items).map .list
  | .object fields => (fieldsOfJson? fields).map fun c => .table (c.map fun e => (.text e.1, e.2))

/-- The values of the items of an array. -/
def itemsOfJson? : List Json → Option (List Value)
  | [] => some []
  | v :: rest => do
    let v ← valueOfJson? v
    let rest ← itemsOfJson? rest
    pure (v :: rest)

/-- The values of the fields of an object; of a repeated name the last value counts. -/
def fieldsOfJson? : List (Bytes × Json) → Option Config
  | [] => some []
  | (name, v) :: rest => do
    let v ← valueOfJson? v
    let rest ← fieldsOfJson? rest
    pure (if rest.any (·.1 = name) then rest else (name, v) :: rest)

end

/-- The settings of a JSON text: an object, or null for none. -/
def ofJson (text : Bytes) : Except ConfigError Config :=
  match Json.parse? text with
  | none => .error .notJson
  | some .null => .ok []
  | some (.object fields) =>
    match fieldsOfJson? fields with
    | some entries => .ok entries.lowered
    | none => .error .wrongJson
  | some _ => .error .wrongJson

/-- The extensions of configuration files, in the order in which files are looked for. -/
def extensions : List Bytes :=
  ["json", "toml", "yaml", "yml", "properties", "props", "prop", "hcl", "tfvars", "dotenv", "env",
   "ini"]

/-- The settings of a text in the format of an extension. -/
def ofFormat (extension text : Bytes) : Except ConfigError Config :=
  if extension = ("yaml" : Bytes) || extension = ("yml" : Bytes) then ofYaml text
  else if extension = ("json" : Bytes) then ofJson text
  else .error .noReader

variable {m : Type → Type} [Monad m]

/-- The settings of a named file. -/
def ofFile (host : Host m) (path : Bytes) : m (Except ConfigError Config) := do
  let extension := Files.suffix path
  if extensions.contains extension then
    match ← host.read path with
    | .error e => return .error (.unreadable e)
    | .ok text => return ofFormat extension text
  else return .error (.unsupported extension)

/-- The name of configuration files in the working directory, before an extension. -/
def defaultName : Bytes := ".pegc"

/-- The first of some paths that leads to a file. -/
def firstFile (host : Host m) : List Bytes → m (Option Bytes)
  | [] => return none
  | path :: rest => do
    if (← host.kind path) = some .file then return some path
    firstFile host rest

/-- The settings of the first configuration file in the working directory. -/
def ofWorkingDirectory (host : Host m) : m (Except ConfigError Config) := do
  let names := extensions.map (fun e => Bytes.cat [defaultName, ".", e]) ++ [defaultName]
  match ← firstFile host names with
  | none => return .ok []
  | some path =>
    match ← host.read path with
    | .error e => return .error (.unreadable e)
    | .ok text => return ofYaml text

end GrammarCode.Settings
