import Mathlib.Data.Int.Notation
import OsLabs.Model.Quash.Deque
import OsLabs.ToMathlib.DescriptorTable

/-! # Running scripts

`run_script` and what it calls, in the quash process: the globals of `execute.c` as one record,
together with the descriptor table of the process. `Kernel` holds the answers of the system; a call
that answers twice is told apart by its number. Files, the environment and the working directory are
left out. Children, closed descriptors, waits, signals and messages are recorded in the order of the
calls; the code never reads these records. A `char*` is a list of characters, and one that may be `NULL` an option; an `int` job id an
unbounded integer. `none` is an abort.
-/

namespace OsLabs.Quash

/-! ## Scripts -/

/-- The variants of `Command`, `EOC` apart, with the data that the quash process reads. -/
inductive Command where
  | generic
  | echo
  | «export»
  | cd
  | kill (sig job : ℤ)
  | pwd
  | jobs
  | exit
deriving DecidableEq, Repr

structure Flags where
  redirectIn : Bool
  redirectOut : Bool
  redirectAppend : Bool
  pipeIn : Bool
  pipeOut : Bool
  background : Bool
deriving DecidableEq, Repr

structure CommandHolder where
  redirectIn : Option (List Char)
  redirectOut : Option (List Char)
  flags : Flags
  cmd : Command
deriving DecidableEq, Repr

/-! ## State -/

/-- How a file is opened: with `O_RDONLY`, `O_TRUNC` or `O_APPEND`. -/
inductive Mode where
  | read
  | truncate
  | append
deriving DecidableEq, Repr

/-- What a descriptor refers to: what quash was started with, an end of a pipe, or a file. -/
inductive Description where
  | inherited (fd : ℕ)
  | readEnd (pipe : ℕ)
  | writeEnd (pipe : ℕ)
  | file (path : Option (List Char)) (mode : Mode)
deriving DecidableEq, Repr

abbrev Descriptors := DescriptorTable Description

structure Job where
  jobId : ℤ
  cmd : List Char
  pidList : List ℤ
deriving DecidableEq, Repr

/-- A forked process, with its descriptors when `child_run_command` is called. -/
structure Child where
  pid : ℤ
  holder : CommandHolder
  fds : Descriptors
deriving Repr

/-- The messages about background jobs. -/
inductive Message where
  | started (jobId pid : ℤ) (cmd : List Char)
  | completed (jobId pid : ℤ) (cmd : List Char)
deriving DecidableEq, Repr

/-- The answers of the system: what the `n`th `fork` returns in the parent, what the `n`th `waitpid`
with `WNOHANG` returns, and whether the process of the `n`th `fork` can open a file. -/
structure Kernel where
  fork : ℕ → ℤ
  waitpid : ℕ → ℤ → ℤ
  opens : ℕ → Option (List Char) → Mode → Bool

/-- The globals of `execute.c` and the state of the quash process. -/
structure Shell where
  globalsCreated : Bool
  currentJob : List ℤ
  bgJobs : List Job
  pipes : ℕ → ℕ × ℕ
  curPipe : ℕ
  oldPipe : ℕ
  fds : Descriptors
  pipesMade : ℕ
  forks : ℕ
  polls : ℕ
  children : List Child
  closes : List (Option Description)
  waits : List ℤ
  signals : List (ℤ × ℤ)
  messages : List Message

/-- Quash when it starts, with descriptors `fds`. -/
def Shell.initial (fds : Descriptors) : Shell where
  globalsCreated := false
  currentJob := []
  bgJobs := []
  pipes := fun _ => (0, 0)
  curPipe := 0
  oldPipe := 1
  fds := fds
  pipesMade := 0
  forks := 0
  polls := 0
  children := []
  closes := []
  waits := []
  signals := []
  messages := []

/-! ## Jobs -/

/-- `duplicate_PIDDeque`: the deque it leaves and the one it returns. -/
def duplicatePidDeque (pidList : List ℤ) : List ℤ × List ℤ :=
  pidList.foldl (fun both pid => (pushBack both.1 pid, pushBack both.2 pid)) (newDeque, newDeque)

def getNextJobNumber (bgJobs : List Job) : Option ℤ :=
  if bgJobs = [] then some 1 else do
    let j ← peekBack bgJobs
    return j.jobId + 1

/-- The loop of `check_jobs_bg_status` over the pids of a job: whether it is done, and the number of
polls. -/
def pollPids (kernel : Kernel) : List ℤ → ℕ → Bool × ℕ
  | [], polls => (true, polls)
  | pid :: pidList, polls =>
    if kernel.waitpid polls pid = 0 then (false, polls + 1) else pollPids kernel pidList (polls + 1)

/-- The loop of `check_jobs_bg_status`, with the iterations that are left. -/
def checkJobs (kernel : Kernel) : ℕ → Shell → Option Shell
  | 0, s => some s
  | rest + 1, s => do
    let (j, bgJobs) ← popFront s.bgJobs
    let (kept, pidList) := duplicatePidDeque j.pidList
    let j := { j with pidList := kept }
    let firstPid ← peekFront pidList
    let (done, polls) := pollPids kernel pidList s.polls
    if done then
      checkJobs kernel rest
        { s with bgJobs, polls, messages := s.messages ++ [.completed j.jobId firstPid j.cmd] }
    else checkJobs kernel rest { s with bgJobs := pushBack bgJobs j, polls }

def checkJobsBgStatus (kernel : Kernel) (s : Shell) : Option Shell :=
  checkJobs kernel s.bgJobs.length s

/-- The loop of `run_kill`, with the iterations that are left. -/
def killJobs (signal jobId : ℤ) : ℕ → Shell → Option Shell
  | 0, s => some s
  | rest + 1, s => do
    let (j, bgJobs) ← popFront s.bgJobs
    if j.jobId = jobId then
      let (kept, pidList) := duplicatePidDeque j.pidList
      killJobs signal jobId rest { s with
        bgJobs := pushBack bgJobs { j with pidList := kept }
        signals := s.signals ++ pidList.map fun pid => (pid, signal) }
    else killJobs signal jobId rest { s with bgJobs := pushBack bgJobs j }

def runKill (signal jobId : ℤ) (s : Shell) : Option Shell := killJobs signal jobId s.bgJobs.length s

/-! ## Descriptors -/

/-- `pipe(pipes[slot])`. -/
def Shell.pipe (s : Shell) (slot : ℕ) : Shell :=
  let (readFd, fds) := s.fds.open (.readEnd s.pipesMade)
  let (writeFd, fds) := fds.open (.writeEnd s.pipesMade)
  { s with fds, pipes := Function.update s.pipes slot (readFd, writeFd), pipesMade := s.pipesMade + 1 }

def Shell.close (s : Shell) (fd : ℕ) : Shell :=
  { s with fds := s.fds.close fd, closes := s.closes ++ [s.fds.get fd] }

/-- `close(pipes[slot][0])` and `close(pipes[slot][1])`. -/
def Shell.closePipe (s : Shell) (slot : ℕ) : Shell := (s.close (s.pipes slot).1).close (s.pipes slot).2

/-- Open a file, duplicate it to a descriptor and close it; a failed `open` makes all three fail. -/
def redirect (opens : Bool) (file : Description) (fd : ℕ) (fds : Descriptors) : Descriptors :=
  if opens then ((fds.open file).2.dup (fds.open file).1 fd).close (fds.open file).1 else fds

/-- The child's branch of `create_process`: the parts "setup pipes" and "close pipes". -/
def childPipes (flags : Flags) (s : Shell) : Descriptors :=
  let cur := s.pipes s.curPipe
  let old := s.pipes s.oldPipe
  let fds := if flags.pipeIn then s.fds.dup old.1 0 else s.fds
  let fds := if flags.pipeOut then fds.dup cur.2 1 else fds
  (((fds.close cur.1).close cur.2).close old.1).close old.2

/-- The mode in which `redirect_out` is opened. -/
def Flags.outMode (flags : Flags) : Mode := if flags.redirectAppend then .append else .truncate

/-- The part "setup redirects", up to the call of `child_run_command`. -/
def childDescriptors (kernel : Kernel) (holder : CommandHolder) (s : Shell) : Descriptors :=
  let fds := childPipes holder.flags s
  let fds := if holder.flags.redirectIn then
    redirect (kernel.opens s.forks holder.redirectIn .read) (.file holder.redirectIn .read) 0 fds else fds
  let mode := holder.flags.outMode
  if holder.flags.redirectOut then
    redirect (kernel.opens s.forks holder.redirectOut mode) (.file holder.redirectOut mode) 1 fds
  else fds

/-! ## Processes and scripts -/

def parentRunCommand : Command → Shell → Option Shell
  | .kill sig job, s => runKill sig job s
  | _, s => some s

/-- The shell after `fork`, in the parent. A failed `fork` returns a negative number. -/
def Shell.fork (kernel : Kernel) (holder : CommandHolder) (s : Shell) : Shell :=
  let pid := kernel.fork s.forks
  { s with
    forks := s.forks + 1
    currentJob := pushBack s.currentJob pid
    children := if 0 < pid then s.children ++ [⟨pid, holder, childDescriptors kernel holder s⟩]
      else s.children }

def createProcess (kernel : Kernel) (holder : CommandHolder) (s : Shell) : Option Shell := do
  let s ← parentRunCommand holder.cmd ((s.pipe s.curPipe).fork kernel holder)
  let s := s.closePipe s.oldPipe
  return { s with oldPipe := s.curPipe, curPipe := (s.curPipe + 1) % 2 }

/-- The loop of `run_script`. -/
def createProcesses (kernel : Kernel) : List CommandHolder → Shell → Option Shell
  | [], s => some s
  | holder :: holders, s => do createProcesses kernel holders (← createProcess kernel holder s)

/-- The loop that waits for the processes of the foreground job. -/
def waitForeground : List ℤ → Shell → Shell
  | [], s => { s with currentJob := [] }
  | pid :: currentJob, s => waitForeground currentJob { s with currentJob, waits := s.waits ++ [pid] }

/-- The branch of `run_script` for a background job, whose command is `command`. -/
def startJob (command : List Char) (s : Shell) : Option Shell := do
  let jobId ← getNextJobNumber s.bgJobs
  let j : Job := ⟨jobId, command, (duplicatePidDeque s.currentJob).2⟩
  let firstPid ← peekFront j.pidList
  return { s with
    currentJob := newDeque
    bgJobs := pushBack s.bgJobs j
    messages := s.messages ++ [.started jobId firstPid command] }

def Shell.createGlobals (s : Shell) : Shell :=
  if s.globalsCreated then s
  else { s with currentJob := newDeque, bgJobs := newDeque, globalsCreated := true }

/-- A script of nothing but `exit`. -/
def isExit (holders : List CommandHolder) : Bool := holders.map (·.cmd) = [.exit]

/-- The flag of `holders[0]`; an `EOC` has no flags. -/
def isBackground (holders : List CommandHolder) : Bool :=
  (holders.head?.map (·.flags.background)).getD false

/-- `run_script`, for an array of holders without its `EOC` or for `NULL`. -/
def runScript (kernel : Kernel) (command : List Char) (holders : Option (List CommandHolder)) (s : Shell) :
    Option Shell :=
  match holders with
  | none => some s
  | some holders => do
    let s ← checkJobsBgStatus kernel s.createGlobals
    if isExit holders then some s
    else do
      let s ← createProcesses kernel holders (s.pipe s.oldPipe)
      let s := s.closePipe s.oldPipe
      if isBackground holders then startJob command s else some (waitForeground s.currentJob s)

/-- One call of `run_script`: the command string and the script. -/
abbrev Script := List Char × Option (List CommandHolder)

def runScripts (kernel : Kernel) : List Script → Shell → Option Shell
  | [], s => some s
  | script :: scripts, s => do runScripts kernel scripts (← runScript kernel script.1 script.2 s)

end OsLabs.Quash
