import OsLabs.Model.Quash.WorkingDirectory
import OsLabs.ToMathlib.DeterministicRun

/-! # When `cd` leaves a consistent shell

`run_cd` writes `PWD` and `OLD_PWD` whether `chdir` has succeeded or not. A `cd` whose directory did not
resolve changes nothing, one that gets through to an absolute path keeps `PWD` the name of the working
directory, and one whose `chdir` fails does harm unless both variables hold its path already.
-/

namespace OsLabs.Quash

open DeterministicRun Session

variable {δ : Type*} {fs : FileSystem δ} {s t : Session δ} {dir : Option (List Char)} {d : List Char}

/-- `PWD` is an absolute path of the working directory. -/
def NamesCwd (fs : FileSystem δ) (s : Session δ) : Prop :=
  ∃ path, s.env "PWD".toList = some path ∧ IsAbsolute path ∧ fs.lookup s.cwd path = some s.cwd

/-- A `cd` that fails changes nothing, and none takes its name from the working directory. -/
structure Consistent (fs : FileSystem δ) (s : Session δ) (dir : Option (List Char)) : Prop where
  failed : (∀ d ∈ dir, fs.chdir s.cwd d = none) → runCd fs dir s = .ok s
  named : NamesCwd fs s → ∃ t, runCd fs dir s = .ok t ∧ NamesCwd fs t

/-- The directory resolves to one that `chdir` gets to, by an absolute path, or else `PWD` and `OLD_PWD`
hold it already. -/
def Harmless (fs : FileSystem δ) (s : Session δ) (dir : Option (List Char)) : Prop :=
  ∀ d ∈ dir, fs.chdir s.cwd d ≠ none ∧ (NamesCwd fs s → IsAbsolute d) ∨
    fs.chdir s.cwd d = none ∧ s.env "PWD".toList = some d ∧ s.env "OLD_PWD".toList = some d

/-! ## One command -/

/-- The session behind a `cd` that has got to `cwd`. -/
def changed (s : Session δ) (cwd : δ) (newDir d : List Char) : Session δ :=
  ({ s with cwd }.setenv "OLD_PWD".toList newDir).setenv "PWD".toList d

theorem runCd_eq {newDir : List Char} (pwd : s.env "PWD".toList = some newDir) :
    runCd fs (some d) s = .ok (changed s ((fs.chdir s.cwd d).getD s.cwd) newDir d) := by
  simp only [runCd, pwd]
  rfl

theorem runCd_unset (unset : s.env "PWD".toList = none) : runCd fs (some d) s = .error .abort := by
  simp only [runCd, unset]

@[simp] theorem changed_pwd (s : Session δ) (cwd : δ) (newDir d : List Char) :
    (changed s cwd newDir d).env "PWD".toList = some d := by
  simp only [changed, setenv, Function.update_self]

@[simp] theorem changed_oldPwd (s : Session δ) (cwd : δ) (newDir d : List Char) :
    (changed s cwd newDir d).env "OLD_PWD".toList = some newDir := by
  have other : "OLD_PWD".toList ≠ "PWD".toList := by decide
  simp only [changed, setenv, Function.update_of_ne other, Function.update_self]

theorem changed_eq (pwd : s.env "PWD".toList = some d) (oldPwd : s.env "OLD_PWD".toList = some d) :
    changed s s.cwd d d = s := by
  have env : Function.update (Function.update s.env "OLD_PWD".toList (some d)) "PWD".toList (some d) = s.env := by
    rw [← oldPwd, Function.update_eq_self, oldPwd, ← pwd, Function.update_eq_self]
  cases s
  exact congrArg (Session.mk _ · _ _) env

theorem chdir_lookup {cwd cwd' : δ} (moved : fs.chdir cwd d = some cwd') : fs.lookup cwd d = some cwd' :=
  (Option.filter_eq_some_iff.mp moved).1

/-- A `cd` that gets to an absolute path ends where the path leads. -/
theorem namesCwd_changed {cwd' : δ} (moved : fs.chdir s.cwd d = some cwd') (newDir : List Char) :
    NamesCwd fs (changed s cwd' newDir d) ↔ IsAbsolute d := by
  constructor
  · rintro ⟨path, pwd, absolute, -⟩
    rw [changed_pwd] at pwd
    cases pwd
    exact absolute
  · intro absolute
    refine ⟨d, changed_pwd .., absolute, ?_⟩
    exact (fs.lookup_absolute absolute cwd' s.cwd).trans (chdir_lookup moved)

theorem Harmless.consistent (harmless : Harmless fs s dir) : Consistent fs s dir := by
  cases dir with
  | none => exact ⟨fun _ => rfl, fun names => ⟨s, rfl, names⟩⟩
  | some d =>
    rcases harmless d rfl with ⟨moves, absolute⟩ | ⟨fails, pwd, oldPwd⟩
    · obtain ⟨cwd', moved⟩ := Option.ne_none_iff_exists'.mp moves
      refine ⟨fun failed => absurd (failed d rfl) moves, fun names => ?_⟩
      obtain ⟨newDir, pwd, -⟩ := id names
      have ran : runCd fs (some d) s = _ := runCd_eq pwd
      rw [moved] at ran
      exact ⟨_, ran, (namesCwd_changed moved newDir).mpr (absolute names)⟩
    · have stays : runCd fs (some d) s = .ok s := by
        rw [runCd_eq pwd, fails]
        exact congrArg Except.ok (changed_eq pwd oldPwd)
      exact ⟨fun _ => stays, fun names => ⟨s, stays, names⟩⟩

theorem Consistent.harmless (consistent : Consistent fs s dir) : Harmless fs s dir := by
  rintro d rfl
  cases moved : fs.chdir s.cwd d with
  | some cwd' =>
    refine .inl ⟨Option.some_ne_none _, fun names => ?_⟩
    obtain ⟨t, ran, named⟩ := consistent.named names
    obtain ⟨newDir, pwd, -⟩ := names
    rw [runCd_eq pwd, moved] at ran
    cases ran
    exact (namesCwd_changed moved newDir).mp named
  | none =>
    have stays := consistent.failed fun e same => by cases same; exact moved
    refine .inr ⟨rfl, ?_⟩
    cases pwd : s.env "PWD".toList with
    | none => cases (runCd_unset pwd).symm.trans stays
    | some newDir =>
      rw [runCd_eq pwd, moved] at stays
      have same := Except.ok.inj stays
      have pwd' := changed_pwd s s.cwd newDir d
      have oldPwd' := changed_oldPwd s s.cwd newDir d
      change changed s s.cwd newDir d = s at same
      rw [same] at pwd' oldPwd'
      exact ⟨pwd.symm.trans pwd', oldPwd'.trans (pwd.symm.trans pwd')⟩

/-! ## What the parser hands on -/

theorem dir_to {tree : StringTree} {names : Names} (handed : CdCommand.dir names (.to tree) = some dir) :
    ∃ path, string names tree = some path ∧ dir = names.realpath path := by
  obtain ⟨content, parsed, handed⟩ := Option.bind_eq_some_iff.mp handed
  obtain ⟨path, spelled, content⟩ := Option.bind_eq_some_iff.mp parsed
  cases content
  exact ⟨path, spelled, (Option.some.inj handed).symm⟩

/-- A directory that the parser has resolved is an absolute path. -/
theorem dir_to_absolute {tree : StringTree} (handed : CdCommand.dir (s.names fs) (.to tree) = some (some d)) :
    IsAbsolute d := by
  obtain ⟨path, -, resolved⟩ := dir_to handed
  exact fs.realpath_absolute resolved.symm

/-- `cd dir` on a line of its own ends in the directory that `dir` leads to. -/
theorem cd_follows {tree : StringTree} {path : List Char} (spelled : string (s.names fs) tree = some path)
    (handed : CdCommand.dir (s.names fs) (.to tree) = some (some d)) (moves : fs.chdir s.cwd d ≠ none)
    (ran : runCd fs (some d) s = .ok t) : fs.lookup s.cwd path = some t.cwd := by
  obtain ⟨path', spelled', resolved⟩ := dir_to handed
  cases spelled.symm.trans spelled'
  obtain ⟨cwd', moved⟩ := Option.ne_none_iff_exists'.mp moves
  rw [← fs.lookup_realpath resolved.symm, chdir_lookup moved]
  cases pwd : s.env "PWD".toList with
  | none => cases (runCd_unset pwd).symm.trans ran
  | some newDir =>
    rw [runCd_eq pwd, moved] at ran
    cases ran
    rfl

/-! ## Runs -/

/-- The next step does no harm. -/
def HarmlessNext (fs : FileSystem δ) (s : Session δ) : Prop := ∀ dir ∈ s.pending.head?, Harmless fs s dir

theorem namesCwd_step (names : NamesCwd fs s) (careful : HarmlessNext fs s) (taken : step fs s = .ok t) :
    NamesCwd fs t := by
  cases pending : s.pending with
  | cons dir rest =>
    have harmless : Harmless fs { s with pending := rest } dir := careful dir (by rw [pending]; rfl)
    obtain ⟨t', ran, named⟩ := harmless.consistent.named names
    rw [step, pending] at taken
    cases ran.symm.trans taken
    exact named
  | nil =>
    cases lines : s.lines with
    | nil =>
      rw [step, pending, lines] at taken
      cases taken
      exact names
    | cons line rest =>
      cases parsed : line.mapM (CdCommand.dir (s.names fs)) with
      | none =>
        simp only [step, pending, lines, parsed] at taken
        cases taken
      | some dirs =>
        simp only [step, pending, lines, parsed] at taken
        cases taken
        exact names

theorem namesCwd_run (n : ℕ) (names : NamesCwd fs s)
    (careful : ∀ m t, run (step fs) m s = .ok t → HarmlessNext fs t) (ran : run (step fs) n s = .ok t) :
    NamesCwd fs t := by
  induction n generalizing s with
  | zero =>
    cases ran
    exact names
  | succ n ih =>
    cases taken : step fs s with
    | error fault =>
      rw [run, taken] at ran
      cases ran
    | ok s' =>
      have names' := namesCwd_step names (careful 0 s rfl) taken
      rw [run_succ taken] at ran
      exact ih names' (fun m t later => careful (m + 1) t ((run_succ taken m).trans later)) ran

/-- A `cd` leaves the shell consistent exactly when it does no harm, and a session whose commands all do
none keeps `PWD` the name of the working directory. -/
theorem cd_consistent_iff (fs : FileSystem δ) : (∀ s dir, Consistent fs s dir ↔ Harmless fs s dir) ∧
    ∀ s, NamesCwd fs s → (∀ m t, run (step fs) m s = .ok t → HarmlessNext fs t) →
      ∀ n t, run (step fs) n s = .ok t → NamesCwd fs t :=
  ⟨fun _ _ => ⟨Consistent.harmless, Harmless.consistent⟩,
    fun _ names careful n _ ran => namesCwd_run n names careful ran⟩

/-- The paths of a file system with two directories and a file. -/
def sampleLookup (_cwd path : List Char) : Option (List Char) :=
  if path ∈ ["/".toList, "/home".toList, "/notes".toList] then some path else none

theorem sampleLookup_eq {cwd path found : List Char} (leads : sampleLookup cwd path = some found) :
    found = path ∧ IsAbsolute path := by
  rw [sampleLookup] at leads
  split at leads
  · next member =>
    refine ⟨(Option.some.inj leads).symm, ?_⟩
    simp only [List.mem_cons, List.not_mem_nil, or_false] at member
    rcases member with rfl | rfl | rfl <;> rfl
  · cases leads

def sampleFiles : FileSystem (List Char) where
  lookup := sampleLookup
  searchable node := node ≠ "/notes".toList
  realpath := sampleLookup
  lookup_absolute _ _ _ := rfl
  realpath_absolute resolved := (sampleLookup_eq resolved).1 ▸ (sampleLookup_eq resolved).2
  lookup_realpath resolved := by rw [(sampleLookup_eq resolved).1]

/-- A shell in the root, with one `cd` to run. -/
def sampleSession (dir : String) : Session (List Char) where
  cwd := "/".toList
  env name := if name = "PWD".toList then some "/".toList else none
  pending := []
  lines := [[.to (.first (.simStr dir.toList))]]

theorem namesCwd_sample (dir : String) : NamesCwd sampleFiles (sampleSession dir) :=
  ⟨"/".toList, rfl, rfl, rfl⟩

theorem cd_consistent_home : ∃ t, run (step sampleFiles) 2 (sampleSession "/home") = .ok t ∧
    t.cwd = "/home".toList ∧ NamesCwd sampleFiles t := by
  obtain ⟨s, t, first, second, pending, moves, cwd, done, fixed⟩ : ∃ s t,
      step sampleFiles (sampleSession "/home") = .ok s ∧ step sampleFiles s = .ok t ∧
      s.pending = [some "/home".toList] ∧ sampleFiles.chdir s.cwd "/home".toList = some "/home".toList ∧
      t.cwd = "/home".toList ∧ t.pending = [] ∧ step sampleFiles t = .ok t :=
    ⟨_, _, rfl, rfl, rfl, rfl, rfl, rfl, rfl⟩
  have whole : run (step sampleFiles) 2 (sampleSession "/home") = .ok t := by
    rw [run_succ first, run_succ second]
    rfl
  refine ⟨t, whole, cwd, (cd_consistent_iff sampleFiles).2 _ (namesCwd_sample "/home") ?_ 2 t whole⟩
  intro m u ran dir member
  match m, ran with
  | 0, ran =>
    cases ran
    cases member
  | 1, ran =>
    rw [run_succ first] at ran
    cases ran
    rw [pending] at member
    cases member
    rintro d ⟨⟩
    exact .inl ⟨fun fails => Option.some_ne_none _ (moves.symm.trans fails), fun _ => rfl⟩
  | m + 2, ran =>
    rw [run_succ first, run_succ second, run_fixed fixed] at ran
    cases ran
    rw [done] at member
    cases member

/-- `cd /notes`, which is a file: the shell stays where it is, and `PWD` names the file. -/
theorem cd_to_file : ¬ Consistent sampleFiles (sampleSession "/notes") (some "/notes".toList) ∧
    ∃ t, run (step sampleFiles) 2 (sampleSession "/notes") = .ok t ∧ ¬ NamesCwd sampleFiles t := by
  constructor
  · intro consistent
    have stays := consistent.failed fun d same => by cases same; rfl
    have pwd := congrArg (Except.map fun t => t.env "PWD".toList) stays
    revert pwd
    decide
  · obtain ⟨t, ran, pwd, cwd⟩ : ∃ t, run (step sampleFiles) 2 (sampleSession "/notes") = .ok t ∧
        t.env "PWD".toList = some "/notes".toList ∧ t.cwd = "/".toList := ⟨_, rfl, rfl, rfl⟩
    refine ⟨t, ran, ?_⟩
    rintro ⟨path, pwd', -, leads⟩
    cases pwd.symm.trans pwd'
    rw [cwd] at leads
    revert leads
    decide

end OsLabs.Quash
