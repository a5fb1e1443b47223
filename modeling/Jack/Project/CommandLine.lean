import Jack.Project.Build
import Jack.Text.Quoted

/-!
Contract: the command line of the compiler.

Owns: how flags are read, the options that they lead to, and what a run prints and
returns.

Does not own: the build.

A flag is `-name value` or `-name=value`, with one dash or two. Reading stops at the
first argument that is no flag, and behind `--`. What follows does not count.
-/

set_option autoImplicit false

namespace Jack

inductive UsageFault where
  | badSyntax (argument : Bytes)
  | unknown (name : Bytes)
  | noValue (name : Bytes)
  | badNumber (name value : Bytes) (fault : Numeral.LiteralFault)
deriving DecidableEq, Repr

def UsageFault.message : UsageFault → Bytes
  | badSyntax argument => utf8 "bad flag syntax: " ++ argument
  | unknown name => utf8 "flag provided but not defined: -" ++ name
  | noValue name => utf8 "flag needs an argument: -" ++ name
  | badNumber name value fault =>
      let reason := match fault with
        | .malformed => "parse error"
        | .outOfRange => "value out of range"
      utf8 "invalid value " ++ Text.quoted value ++ utf8 " for flag -" ++ name ++
        utf8 ": " ++ utf8 reason

inductive Request where
  | help
  | run (flags : Flags)
deriving DecidableEq, Repr

namespace CommandLine

/-! ## Flags -/

/-- The text of an argument that is a flag, without its dashes; nothing for an argument
at which reading stops. -/
def flagText? : Bytes → Option Bytes
  | first :: second :: rest =>
      if first ≠ ascii '-' then none
      else if second ≠ ascii '-' then some (second :: rest)
      else if rest.isEmpty then none
      else some rest
  | _ => none

/-- Splits the text of a flag into its name and, behind an equals sign, its value. -/
def splitFlag (text : Bytes) : Bytes × Option Bytes :=
  let isName (byte : UInt8) : Bool := byte != ascii '='
  match text.dropWhile isName with
  | [] => (text, none)
  | _ :: value => (text.takeWhile isName, some value)

/-- Sets a flag; nothing when there is no flag of that name. -/
def set? (flags : Flags) (name value : Bytes) : Option (Except UsageFault Flags) :=
  if name = utf8 "path" then some (.ok { flags with path := some value })
  else if name = utf8 "o" then some (.ok { flags with output := some value })
  else if name = utf8 "bundle" then some (.ok { flags with bundle := some value })
  else if name = utf8 "config" then some (.ok { flags with config := some value })
  else if name = utf8 "log" then some (.ok { flags with log := some value })
  else if name = utf8 "v" then
    match Numeral.readLiteral value with
    | .ok number => some (.ok { flags with verbosity := some number })
    | .error fault => some (.error (.badNumber name value fault))
  else none

def isFlag (name : Bytes) : Bool :=
  (set? {} name []).isSome

def asksForHelp (name : Bytes) : Bool :=
  name == utf8 "h" || name == utf8 "help"

def set (flags : Flags) (name value : Bytes) : Except UsageFault Flags :=
  (set? flags name value).getD (.error (.unknown name))

/-- Reads arguments from the left. The first one that is at fault counts, and so does
the last value of a flag. -/
def read (flags : Flags) : List Bytes → Except UsageFault Request
  | [] => .ok (.run flags)
  | argument :: rest =>
      match flagText? argument with
      | none => .ok (.run flags)
      | some text =>
          if text.isEmpty || text.head? == some (ascii '-') ||
              text.head? == some (ascii '=') then .error (.badSyntax argument)
          else
            let name := (splitFlag text).1
            if !isFlag name then
              if asksForHelp name then .ok .help else .error (.unknown name)
            else
              match (splitFlag text).2 with
              | some value =>
                  match set flags name value with
                  | .error fault => .error fault
                  | .ok flags => read flags rest
              | none =>
                  match rest with
                  | [] => .error (.noValue name)
                  | value :: rest =>
                      match set flags name value with
                      | .error fault => .error fault
                      | .ok flags => read flags rest

/-! ## Runs -/

/-- What a run leaves: its exit code, what it prints, and what it says beside that. -/
structure Response where
  exit : Nat
  printed : Bytes := []
  remarks : Bytes := []
deriving DecidableEq, Repr

variable {m : Type → Type} [Monad m] [Files m]

/-- The options of a run: those of the project file, with flags on top. An empty name
of a project file is none. -/
def options (flags : Flags) : m (Except ConfigFault Options) := do
  let named := flags.config.getD []
  let config ←
    if named.isEmpty then do
      Config.find (← Config.directoryFor (flags.path.getD (utf8 ".")))
    else Config.load named
  return config.map fun config => flags.override config.options

/-- The events that a verbosity shows. At one everything but debugging is shown; each
step down leaves out more. -/
def shows (verbosity : Int) (level : LogLevel) : Bool :=
  match level with
  | .error => -2 ≤ verbosity
  | .warning => -1 ≤ verbosity
  | .info => 1 ≤ verbosity
  | .debug => 2 ≤ verbosity

/-- Whether a verbosity shows anything at all. -/
def isSilent (verbosity : Int) : Bool :=
  verbosity ≤ -4

/-- The lines of a log, as far as a verbosity shows them. -/
def logText (verbosity : Int) (log : List LogEvent) : Bytes :=
  (log.filter fun event => shows verbosity event.level).flatMap fun event =>
    Text.capitals (utf8 event.level.name) ++ utf8 " [jackc] " ++ event.message ++ utf8 "\n"

def failure (message : Bytes) : Response :=
  { exit := 1, printed := utf8 "Error: " ++ message ++ utf8 "\n" }

def responseTo (report : BuildReport) : Response :=
  match report.outcome with
  | .ok _ => { exit := 0 }
  | .error fault => failure fault.message

/-- Runs a build that logs to a file. The file is opened first; without it there is no
build. -/
def runLogged (options : Options) (random : Bytes) : m Response := do
  match ← Files.extend options.log [] with
  | .error fault =>
      return { exit := 1, remarks := utf8 "log file error: " ++ fault.message ++ utf8 "\n" }
  | .ok _ =>
      let report ← runBuild options random
      let _ ← Files.extend options.log (logText options.verbosity report.log)
      return responseTo report

def runWith (options : Options) (random : Bytes) : m Response := do
  if options.log.isEmpty || isSilent options.verbosity then
    let report ← runBuild options random
    return { responseTo report with remarks := logText options.verbosity report.log }
  else runLogged options random

def usage : Bytes :=
  utf8 <| String.intercalate "\n"
    ["Usage of jackc:",
      "  -bundle string",
      "    \talso save every compiled class into this cbor bundle",
      "  -config string",
      "    \tthe project file, jackc.toml of the path directory when empty",
      "  -log string",
      "    \tthe log file, stderr when empty",
      "  -o string",
      "    \tthe directory to save vm files, next to the jack files when empty",
      "  -path string",
      "    \ta jack file or a directory of jack files (default \".\")",
      "  -v int",
      "    \tlog verbosity (default 1)",
      ""]

/-- Runs the compiler with its arguments. The random bytes give a bundle its
identifier. -/
def run (arguments : List Bytes) (random : Bytes) : m Response := do
  match read {} arguments with
  | .error fault =>
      return { exit := 2, remarks := fault.message ++ utf8 "\n" ++ usage }
  | .ok .help => return { exit := 0, remarks := usage }
  | .ok (.run flags) =>
      match ← options flags with
      | .error fault => return failure fault.message
      | .ok options => runWith options random

end CommandLine

end Jack
