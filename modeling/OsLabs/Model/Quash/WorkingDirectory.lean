import Mathlib.Logic.Function.Basic
import OsLabs.Model.Quash.Parse

/-! # Changing the working directory

`run_cd`, and the lines of `cd` commands that lead to it: the parser resolves the directories of a whole
line, and then they are changed to one by one. The file system is a parameter. `δ` is what a path can lead
to, a directory or not; a step runs a `cd` or parses the next line.
-/

namespace OsLabs.Quash

def IsAbsolute (path : List Char) : Prop := path.head? = some '/'

instance : DecidablePred IsAbsolute := fun _ => inferInstanceAs (Decidable (_ = _))

/-- What paths lead to, and `realpath`; both depend on the working directory. -/
structure FileSystem (δ : Type*) where
  lookup : δ → List Char → Option δ
  /-- A directory that the shell may change to. -/
  searchable : δ → Bool
  realpath : δ → List Char → Option (List Char)
  lookup_absolute : ∀ {path}, IsAbsolute path → ∀ cwd cwd', lookup cwd path = lookup cwd' path
  realpath_absolute : ∀ {cwd path resolved}, realpath cwd path = some resolved → IsAbsolute resolved
  lookup_realpath : ∀ {cwd path resolved}, realpath cwd path = some resolved →
    lookup cwd resolved = lookup cwd path

/-- `cd` and `cd dir`. -/
inductive CdCommand where
  | home
  | to (dir : StringTree)

/-- What a line of `cd` commands sees and changes. `pending` are the directories of the commands of a line
that are still to run, `lines` the lines behind it. -/
structure Session (δ : Type*) where
  cwd : δ
  env : Env
  pending : List (Option (List Char))
  lines : List (List CdCommand)

/-- An assertion fails, or `setenv` is given no value. -/
inductive Abort where
  | abort
deriving DecidableEq, Repr

variable {δ : Type*}

/-- `chdir`: the new working directory, unless it fails. -/
def FileSystem.chdir (fs : FileSystem δ) (cwd : δ) (dir : List Char) : Option δ :=
  (fs.lookup cwd dir).filter fs.searchable

namespace Session

def setenv (s : Session δ) (name value : List Char) : Session δ :=
  { s with env := Function.update s.env name (some value) }

def names (fs : FileSystem δ) (s : Session δ) : Names := ⟨s.env, fs.realpath s.cwd⟩

end Session

def CdCommand.content : CdCommand → CmdContent
  | .home => .cd
  | .to dir => .cdTo dir

/-- The directory that the parser hands on. -/
def CdCommand.dir (names : Names) (command : CdCommand) : Option (Option (List Char)) := do
  match ← cmdContent names command.content with
  | .cd dir => some dir
  | _ => none

/-- `run_cd`. -/
def runCd (fs : FileSystem δ) (dir : Option (List Char)) (s : Session δ) : Except Abort (Session δ) :=
  match dir with
  | none => .ok s
  | some dir =>
    -- What `chdir` returns is not looked at.
    let s := { s with cwd := (fs.chdir s.cwd dir).getD s.cwd }
    match s.env "PWD".toList with
    | none => .error .abort
    | some newDir => .ok ((s.setenv "OLD_PWD".toList newDir).setenv "PWD".toList dir)

namespace Session

def step (fs : FileSystem δ) (s : Session δ) : Except Abort (Session δ) :=
  match s.pending, s.lines with
  | dir :: pending, _ => runCd fs dir { s with pending }
  | [], line :: lines =>
    match line.mapM (CdCommand.dir (s.names fs)) with
    | none => .error .abort
    | some pending => .ok { s with pending, lines }
  | [], [] => .ok s

end Session

end OsLabs.Quash
