import Jack.Compilation
import Jack.Machine.Bundle
import Jack.Project.Config

/-!
Contract: compiling the source files of a project.

Owns: which files are compiled, in which order things happen, what is written where,
what is logged, and the faults of a build.

Does not own: how a log is shown.

Every file is compiled before anything is written. Code goes to a file named for its
class, in the output directory or else next to its source. A bundle comes last.
-/

set_option autoImplicit false

namespace Jack

/-! ## Log -/

/-- How much a log entry matters, from most to least. -/
inductive LogLevel where
  | error
  | warning
  | info
  | debug
deriving DecidableEq, Repr

def LogLevel.name : LogLevel → String
  | error => "error"
  | warning => "warning"
  | info => "info"
  | debug => "debug"

inductive LogEvent where
  | found (count : Nat)
  | compiling (file : Bytes)
  | rejected (file : Bytes) (diagnostic : Diagnostic)
  | otherName (file name : Bytes)
  | savedCode (path : Bytes)
  | savedBundle (path : Bytes) (classes : Nat) (id : Bytes)
deriving DecidableEq, Repr

def LogEvent.level : LogEvent → LogLevel
  | found _ => .info
  | compiling _ => .debug
  | rejected _ _ => .error
  | otherName _ _ => .warning
  | savedCode _ => .info
  | savedBundle _ _ _ => .info

def LogEvent.message : LogEvent → Bytes
  | found count =>
      utf8 "compiler: found " ++ Numeral.decimal count ++ utf8 " jack files"
  | compiling file => utf8 "compiler: compiling " ++ file
  | rejected file diagnostic =>
      utf8 "compiler: " ++ file ++ utf8 ": " ++ diagnostic.text
  | otherName file name =>
      utf8 "compiler: " ++ file ++ utf8 " declares class " ++ name
  | savedCode path => utf8 "compiler: save vm file: " ++ path
  | savedBundle path classes id =>
      utf8 "compiler: save bundle " ++ path ++ utf8 " with " ++
        Numeral.decimal classes ++ utf8 " classes, id " ++ id

/-! ## Faults -/

inductive BuildFault where
  | refused (fault : FileFault)
  | notSource (path : Bytes)
  | noSources (paths : List Bytes)
  | rejected (file : Bytes) (diagnostic : Diagnostic)
  | unreadableCode (name : Bytes) (fault : Machine.ListingFault)
  | miscounted (name : Bytes) (written readBack : Nat)
deriving DecidableEq, Repr

def BuildFault.message : BuildFault → Bytes
  | refused fault => fault.message
  | notSource path => path ++ utf8 " is not a jack file"
  | noSources paths =>
      utf8 "no jack files found in " ++ List.intercalate (utf8 ", ") paths
  | rejected file diagnostic => file ++ utf8 ": " ++ diagnostic.text
  | unreadableCode name fault => utf8 "class " ++ name ++ utf8 ": " ++ fault.message
  | miscounted name written readBack =>
      utf8 "class " ++ name ++ utf8 ": wrote " ++ Numeral.decimal written ++
        utf8 " instructions, read back " ++ Numeral.decimal readBack

/-! ## Steps -/

/-- A step of a build: it can fail, and it keeps a log whether it fails or not. -/
abbrev BuildStep (m : Type → Type) : Type → Type :=
  ExceptT BuildFault (StateT (List LogEvent) m)

structure CompiledFile where
  path : Bytes
  compiled : CompiledClass
deriving DecidableEq, Repr

namespace Build

def sourceEnding : Bytes :=
  utf8 ".jack"

def isSource (name : Bytes) : Bool :=
  Bytes.endsWith sourceEnding name

variable {m : Type → Type} [Monad m]

/-- Adds to the log, the latest event first. -/
def log (event : LogEvent) : BuildStep m Unit :=
  modify (event :: ·)

/-- A file operation that has to succeed. -/
def require {Value : Type} (operation : m (Except FileFault Value)) :
    BuildStep m Value := do
  match ← (operation : m _) with
  | .ok value => return value
  | .error fault => throw (.refused fault)

variable [Files m]

/-- The source files of one path: the path itself, or those in a directory in the
order of their names. Directories in it do not count. -/
def sourcesOf (path : Bytes) : BuildStep m (List Bytes) := do
  match ← require (Files.stat path) with
  | .file => if isSource path then return [path] else throw (.notSource path)
  | .directory =>
      let entries ← require (Files.list path)
      return entries.filterMap fun (name, kind) =>
        if kind = .file ∧ isSource name then some (Path.join path name) else none

/-- The source files of several paths, in order. A file that is named twice is there
twice. -/
def discover (paths : List Bytes) : BuildStep m (List Bytes) := do
  let files ← paths.mapM sourcesOf
  return files.flatten

/-- Compiles a source file. A class can have another name than its file. -/
def compile (file : Bytes) : BuildStep m CompiledFile := do
  log (.compiling file)
  let source ← require (Files.read file)
  match compileClass source with
  | .error diagnostic =>
      log (.rejected file diagnostic)
      throw (.rejected file diagnostic)
  | .ok compiled =>
      if Bytes.dropEnding sourceEnding (Path.lastElement file) ≠ compiled.name then
        log (.otherName file compiled.name)
      return { path := file, compiled }

/-- The text of a class's code, provided that it reads back as as many instructions. -/
def checkedListing (compiled : CompiledClass) : Except BuildFault Bytes :=
  let text := Machine.listing compiled.code
  match Machine.readListing text with
  | .error fault => .error (.unreadableCode compiled.name fault)
  | .ok code =>
      if code.length = compiled.code.length then .ok text
      else .error (.miscounted compiled.name compiled.code.length code.length)

def codeDirectory (options : Options) (file : Bytes) : Bytes :=
  if options.output.isEmpty then Path.directory file else options.output

/-- Writes the code of a file, and answers with the path of what it wrote. -/
def saveCode (options : Options) (file : CompiledFile) : BuildStep m Bytes := do
  let directory := codeDirectory options file.path
  require (Files.makeDirectories directory)
  match checkedListing file.compiled with
  | .error fault => throw fault
  | .ok text =>
      let path := Path.join directory (file.compiled.name ++ utf8 ".vm")
      require (Files.save path text)
      log (.savedCode path)
      return path

def bundleOf (random : Bytes) (files : List CompiledFile) : Machine.Bundle :=
  files.foldl (fun bundle file => bundle.add file.compiled.name file.compiled.code)
    (Machine.Bundle.fresh random)

def saveBundle (path : Bytes) (bundle : Machine.Bundle) : BuildStep m Unit := do
  require (Files.makeDirectories (Path.directory path))
  require (Files.save path bundle.encode)
  log (.savedBundle path (bundle.units.getD []).length bundle.id)

/-- Finds and compiles all source files. Nothing is written. -/
def compileSources (options : Options) : BuildStep m (List CompiledFile) := do
  let files ← discover options.paths
  if files.isEmpty then throw (.noSources options.paths)
  log (.found files.length)
  files.mapM compile

/-- Writes compiled files and, if one is asked for, their bundle. The answer lists the
paths that were written. -/
def save (options : Options) (random : Bytes) (files : List CompiledFile) :
    BuildStep m (List Bytes) := do
  let written ← files.mapM (saveCode options)
  if options.bundle.isEmpty then return written
  saveBundle options.bundle (bundleOf random files)
  return written ++ [options.bundle]

def build (options : Options) (random : Bytes) : BuildStep m (List Bytes) := do
  save options random (← compileSources options)

end Build

/-- What is left of a build: the paths that were written or a fault, and the log. -/
structure BuildReport where
  outcome : Except BuildFault (List Bytes)
  log : List LogEvent

/-- Runs a build. The random bytes give a bundle its identifier. -/
def runBuild {m : Type → Type} [Monad m] [Files m] (options : Options) (random : Bytes) :
    m BuildReport := do
  let (outcome, log) ← ((Build.build options random).run).run []
  return { outcome, log := log.reverse }

end Jack
