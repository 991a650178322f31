import MiniPascal.Command.FileTree
import MiniPascal.Command.Options
import MiniPascal.Compiler

/-!
The command: it compiles files to files, one after the other, and tells what went wrong.
-/

namespace MiniPascal.Command

/-- What a run leaves behind beside the files. -/
structure Outcome where
  exit : Nat
  stdout : String := ""
  stderr : String := ""
  deriving DecidableEq, Repr

def usage : String := "Usage: pascal2c [OPTIONS] [INPUTS]..."

def helpText : String :=
  "Translate Pascal programs into C99 source files\n\n" ++ usage ++ "\n\n"
    ++ "Arguments:\n"
    ++ "  [INPUTS]...  Pascal source files\n\n"
    ++ "Options:\n"
    ++ "  -o, --output <FILE>      Output file, used when there is a single input "
    ++ "[default: target.c]\n"
    ++ "  -O, --opt-level <LEVEL>  Optimization level; 1 and above fold constant expressions "
    ++ "[default: 0]\n"
    ++ "  -v, --version            Print version information and exit\n"
    ++ "  -h, --help               Print help\n"

def versionText : String := "pascal2c 0.1.0\n"

/-- A file to compile and the file to write. -/
structure Job where
  input : String
  output : String
  deriving DecidableEq, Repr

/-- A single input has one output; several are each written beside themselves. -/
def jobs (o : Options) : List Job :=
  match o.inputs with
  | [input] => [⟨input, o.output.getD "target.c"⟩]
  | inputs => inputs.map fun input => ⟨input, Path.withExtension input "c"⟩

/-- An output that several inputs cannot share is pointed out. -/
def warning (o : Options) : String :=
  match o.inputs, o.output with
  | [_], _ | _, none => ""
  | inputs, some output =>
    "[WARN] ignoring --output " ++ output ++ " with " ++ toString inputs.length
      ++ " inputs; each writes <name>.c\n"

def failure (file message : String) : String := file ++ ": error: " ++ message ++ "\n"

def fileFailure (file path : String) (e : FileError) : String :=
  failure file (path ++ ": " ++ e.message)

/-- The text about a compilation that gave no program. -/
def report (file source : String) : CompileError → String
  | .diagnostics ds =>
    String.join (ds.map fun d => d.render file source false)
      ++ file ++ ": " ++ toString ds.length ++ " error(s), no output written\n"
  | e => failure file e.message

/-- Does a job and answers the text about what went wrong, if something did. -/
def runJob {m : Type → Type} [Monad m] (files : FileAccess m) (level : Nat) (job : Job) :
    m (Option String) := do
  match ← files.read job.input with
  | .error e => return some (fileFailure job.input job.input e)
  | .ok source =>
    match compile source level with
    | .error e => return some (report job.input source e)
    | .ok program =>
      match ← files.write job.output program with
      | .ok _ => return none
      | .error e => return some (fileFailure job.input job.output e)

/-- Does all jobs in order and answers what went wrong in them. -/
def runJobs {m : Type → Type} [Monad m] (files : FileAccess m) (level : Nat) :
    List Job → m (List String)
  | [] => return []
  | job :: rest => do
    let failure ← runJob files level job
    let failures ← runJobs files level rest
    return failure.toList ++ failures

/-- How arguments are read, and what is said about them. -/
structure Front where
  request : List String → Request
  usage : String
  help : String
  warning : Options → String

def Front.standard : Front := ⟨Command.request, Command.usage, helpText, Command.warning⟩

/-- Compiles the inputs. One that fails does not keep the others from being compiled. -/
def compileInputs {m : Type → Type} [Monad m] (files : FileAccess m) (front : Front) (o : Options) :
    m Outcome := do
  let failures ← runJobs files (o.level.getD 0) (jobs o)
  return {
    exit := if failures.isEmpty then 0 else 1
    stderr := front.warning o ++ String.join failures }

def run {m : Type → Type} [Monad m] (files : FileAccess m) (args : List String)
    (front : Front := .standard) : m Outcome :=
  match front.request args with
  | .rejected =>
    return { exit := 2, stderr := front.usage ++ "\n" }
  | .help => return { exit := 0, stdout := front.help }
  | .run o =>
    if o.version then return { exit := 0, stdout := versionText }
    else if o.inputs.isEmpty then
      return { exit := 1, stderr := "Error: No input file provided\n\n" ++ front.usage ++ "\n" }
    else compileInputs files front o

end MiniPascal.Command
