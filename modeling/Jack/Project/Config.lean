import Jack.Project.Files
import Jack.Text.LetterCase
import Jack.Toml.Document

/-!
Contract: the settings of a project.

Owns: settings and their defaults, the reading of a project file, the search for one,
and the options of a run, which flags can override.

Does not own: how flags are written, and what a run does.

A project file is a TOML text with the sections `source` (`dirs`), `output` (`dir` and
`bundle`) and `log` (`verbosity` and `file`). Letter case does not matter in names, and
other names do not count. Paths in it start at the directory that it lies in.
-/

set_option autoImplicit false

namespace Jack

/-- The settings of a project. An empty output directory puts code next to its source;
an empty bundle or log file means that there is none. -/
structure Config where
  sourceDirectories : List Bytes := [utf8 "."]
  outputDirectory : Bytes := []
  bundle : Bytes := []
  verbosity : Int := 1
  logFile : Bytes := []
  /-- The directory that relative paths start at. -/
  directory : Bytes := utf8 "."
deriving DecidableEq, Repr

inductive ConfigFault where
  | unreadable (path : Bytes) (fault : FileFault)
  | malformed (path : Bytes)
  | unreachable (fault : FileFault)
deriving DecidableEq, Repr

def ConfigFault.message : ConfigFault → Bytes
  | unreadable path fault => utf8 "cannot read " ++ path ++ utf8 ": " ++ fault.message
  | malformed path => utf8 "parse error in " ++ path
  | unreachable fault => fault.message

namespace Config

open Toml (Document Table Value)

/-- The name of a project file that is looked for. -/
def fileName : Bytes :=
  utf8 "jackc.toml"

/-! ## From a document -/

def text? : Value → Option Bytes
  | .scalar (.string text) => some text
  | _ => none

def integer? : Value → Option Int
  | .scalar (.integer number) => some number
  | _ => none

def texts? : Value → Option (List Bytes)
  | .array elements => elements.mapM text?
  | _ => none

/-- What to do with the value of a key, by the name of the key. -/
abbrev Readers := List (String × (Config → Value → Option Config))

/-- Reads the entries of a table. Those that no reader is for are passed over. -/
def readEntries? (readers : Readers) (config : Config) (table : Table) : Option Config :=
  table.foldlM
    (fun config (key, value) =>
      match readers.find? fun (name, _) => Text.sameFolded key (utf8 name) with
      | some (_, read?) => read? config value
      | none => some config)
    config

/-- Reads a section, which has to be a table. -/
def readSection? (document : Document) (readers : Readers) (config : Config) :
    Value → Option Config
  | .table number => readEntries? readers config (document.table number)
  | _ => none

def sourceReaders : Readers :=
  [("dirs", fun config value =>
    (texts? value).map fun paths => { config with sourceDirectories := paths })]

def outputReaders : Readers :=
  [("dir", fun config value =>
      (text? value).map fun path => { config with outputDirectory := path }),
    ("bundle", fun config value =>
      (text? value).map fun path => { config with bundle := path })]

def logReaders : Readers :=
  [("verbosity", fun config value =>
      (integer? value).map fun number => { config with verbosity := number }),
    ("file", fun config value =>
      (text? value).map fun path => { config with logFile := path })]

def sections (document : Document) : Readers :=
  [("source", readSection? document sourceReaders),
    ("output", readSection? document outputReaders),
    ("log", readSection? document logReaders)]

/-- The settings that a project file makes, with paths as they are written. -/
def parse? (text : Bytes) : Option Config := do
  let document ← Toml.document? text
  readEntries? (sections document) {} (document.table Document.root)

/-! ## Paths -/

/-- A path of the project file. The empty path stays empty. -/
def resolve (config : Config) (path : Bytes) : Bytes :=
  if path.isEmpty || Path.isAbsolute path then path
  else Path.join config.directory path

/-- The settings with their paths resolved. Without source directories there is one,
that of the project. -/
def resolved (config : Config) : Config :=
  let directories :=
    if config.sourceDirectories.isEmpty then [utf8 "."] else config.sourceDirectories
  { config with
    sourceDirectories := directories.map config.resolve
    outputDirectory := config.resolve config.outputDirectory
    bundle := config.resolve config.bundle
    logFile := config.resolve config.logFile }

/-! ## Files -/

variable {m : Type → Type} [Monad m] [Files m]

def load (path : Bytes) : m (Except ConfigFault Config) := do
  match ← Files.read path with
  | .error fault => return .error (.unreadable path fault)
  | .ok text =>
      match parse? text with
      | none => return .error (.malformed path)
      | some config =>
          let directory := Path.absolute (← Files.workingDirectory) (Path.directory path)
          return .ok { config with directory }.resolved

/-- Reads the project file of a directory. The defaults hold when there is none. -/
def find (directory : Bytes) : m (Except ConfigFault Config) := do
  let path := Path.join directory fileName
  match ← Files.stat path with
  | .ok _ => load path
  | .error fault =>
      if fault.refusal = .missing then return .ok {}
      else return .error (.unreachable fault)

/-- Where to look for the project file of a path: the directory of a file, and the path
itself otherwise. -/
def directoryFor (path : Bytes) : m Bytes := do
  match ← Files.kind path with
  | .ok .file => return Path.directory path
  | _ => return path

end Config

/-! ## Options -/

structure Options where
  paths : List Bytes
  output : Bytes := []
  bundle : Bytes := []
  verbosity : Int := 1
  log : Bytes := []
deriving DecidableEq, Repr

def Config.options (config : Config) : Options :=
  { paths := config.sourceDirectories
    output := config.outputDirectory
    bundle := config.bundle
    verbosity := config.verbosity
    log := config.logFile }

/-- The flags of a command line, those that were given. -/
structure Flags where
  path : Option Bytes := none
  output : Option Bytes := none
  bundle : Option Bytes := none
  config : Option Bytes := none
  verbosity : Option Int := none
  log : Option Bytes := none
deriving DecidableEq, Repr

/-- Flags that were given win over options. -/
def Flags.override (flags : Flags) (options : Options) : Options :=
  { paths := (flags.path.map fun path => [path]).getD options.paths
    output := flags.output.getD options.output
    bundle := flags.bundle.getD options.bundle
    verbosity := flags.verbosity.getD options.verbosity
    log := flags.log.getD options.log }

end Jack
