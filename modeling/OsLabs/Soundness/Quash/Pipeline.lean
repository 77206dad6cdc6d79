import OsLabs.Proofs.Quash.Pipes

/-! # Pipelines

After any sequence of scripts quash has open what it was started with. A pipeline connects each
command to the next by a pipe whose ends no other process has, and leaves no end open in quash. An
end that a command also redirects goes to the file; the parser takes the redirection flag away from
an end that it pipes.
-/

namespace OsLabs.Quash

open DescriptorTable

variable {kernel : Kernel} {fds : Descriptors} {s s' : Shell} {holders : List CommandHolder}

/-- The pipe that a description is an end of. -/
def Description.pipe? : Description → Option ℕ
  | .readEnd pipe | .writeEnd pipe => some pipe
  | _ => none

/-- What quash is started with: standard input and output, and no pipe of its own. -/
structure Entry (fds : Descriptors) : Prop where
  input : fds.get 0 ≠ none
  output : fds.get 1 ≠ none
  noPipe : ∀ fd d, fds.get fd = some d → d.pipe? = none

/-- Between two scripts. -/
structure Settled (fds : Descriptors) (s : Shell) : Prop where
  slots : Slots s
  fds : ∀ fd, s.fds.get fd = fds.get fd
  children : ∀ child ∈ s.children, ∀ fd d pipe, child.fds.get fd = some d → d.pipe? = some pipe →
    pipe < s.pipesMade

theorem settled_initial (fds : Descriptors) : Settled fds (.initial fds) where
  slots := .inl ⟨rfl, rfl⟩
  fds _ := rfl
  children _ member := absurd member List.not_mem_nil

/-- The flags of a pipeline. -/
structure Pipeline (holders : List CommandHolder) : Prop where
  nonempty : holders ≠ []
  pipeIn : ∀ i holder, holders[i]? = some holder → (holder.flags.pipeIn = true ↔ 0 < i)
  pipeOut : ∀ i holder, holders[i]? = some holder → (holder.flags.pipeOut = true ↔ i + 1 < holders.length)

/-- The processes of a script: their input and output, the pipes of the script, and what quash has open
and closed. -/
structure Processes (fds : Descriptors) (holders : List CommandHolder) (s s' : Shell) (new : List Child) :
    Prop where
  children : s'.children = s.children ++ new
  count : new.length = holders.length
  started : ∀ i holder child, holders[i]? = some holder → new[i]? = some child →
    Started fds holder (s.pipesMade + i) (s.pipesMade + i + 1) child
  parent : ∀ fd, s'.fds.get fd = fds.get fd
  closes : s'.closes = s.closes ++ pipeEnds s.pipesMade (holders.length + 1)
  made : s'.pipesMade = s.pipesMade + (holders.length + 1)

theorem connected_congr {base : Descriptors} (same : ∀ fd, base.get fd = fds.get fd) (holder : CommandHolder)
    (input output : ℕ) (opens : Option (List Char) → Mode → Bool) (fd : ℕ) :
    connected base holder input output opens fd = connected fds holder input output opens fd := by
  rw [connected, connected, piped, piped, same]

/-- The only ends of pipes that a child has are its input and its output. -/
theorem connected_pipe (entry : Entry fds) {holder : CommandHolder} {input output : ℕ}
    {opens : Option (List Char) → Mode → Bool} {fd pipe : ℕ} {d : Description}
    (here : connected fds holder input output opens fd = some d) (isPipe : d.pipe? = some pipe) :
    (fd = 1 ∧ holder.flags.pipeOut = true ∧ d = .writeEnd pipe ∧ pipe = output) ∨
      (fd = 0 ∧ holder.flags.pipeIn = true ∧ d = .readEnd pipe ∧ pipe = input) := by
  rw [connected, piped] at here
  split at here
  · obtain rfl := Option.some.inj here
    cases isPipe
  split at here
  · obtain rfl := Option.some.inj here
    cases isPipe
  split at here
  · next writes =>
    obtain rfl := Option.some.inj here
    obtain rfl := Option.some.inj isPipe
    exact .inl ⟨writes.1, writes.2, rfl, rfl⟩
  split at here
  · next reads =>
    obtain rfl := Option.some.inj here
    obtain rfl := Option.some.inj isPipe
    exact .inr ⟨reads.1, reads.2, rfl, rfl⟩
  · rw [entry.noPipe fd d here] at isPipe
    cases isPipe

theorem pipeEnds_concat (first n : ℕ) : pipeEnds first (n + 1) =
    pipeEnds first n ++ [some (.readEnd (first + n)), some (.writeEnd (first + n))] := by
  rw [pipeEnds, List.range'_concat, List.flatMap_append, Nat.one_mul]
  rfl

/-- A script that runs. -/
theorem Settled.ran (settled : Settled fds s) (entry : Entry fds) (forks : ∀ n, 0 < kernel.fork n)
    {s₁ s₂ : Shell} (before : SameDescriptors s s₁)
    (commands : createProcesses kernel holders (s₁.pipe s₁.oldPipe) = some s₂)
    (after : SameDescriptors (s₂.closePipe s₂.oldPipe) s') :
    Slots s₂ ∧ Slots s' ∧ ∃ new, Processes fds holders s s' new := by
  have slots : Slots s₁ := by
    rw [Slots, before.curPipe, before.oldPipe]
    exact settled.slots
  have same (fd : ℕ) : s₁.fds.get fd = fds.get fd := by
    rw [before.fds]
    exact settled.fds fd
  obtain ⟨s₂', new, created, between, children, count, started, closes⟩ :=
    createProcesses_pipes forks (same 0 ▸ entry.input) (same 1 ▸ entry.output) holders (between_pipe slots)
  obtain rfl := Option.some.inj (created.symm.trans commands)
  rw [before.pipesMade] at between started closes
  refine ⟨between.slots, ?_, new, ?_, count, fun i holder child isHolder isChild => ?_, fun fd => ?_, ?_, ?_⟩
  · rw [Slots, after.curPipe, after.oldPipe]
    exact between.slots
  · rw [after.children, ← before.children]
    exact children
  · obtain ⟨isCommand, opens, here⟩ := started i holder child isHolder isChild
    exact ⟨isCommand, opens, fun fd => (here fd).trans (connected_congr same ..)⟩
  · rw [after.fds, ← same]
    exact between.held.close fd
  · have closed := closePipe_closes between.held.ne between.held.readEnd between.held.writeEnd
    rw [after.closes, closed, closes, List.append_assoc, pipeEnds_concat, ← before.closes]
    rfl
  · rw [after.pipesMade]
    exact between.made

theorem Processes.settled {new : List Child} (settled : Settled fds s) (entry : Entry fds) (slots : Slots s')
    (processes : Processes fds holders s s' new) : Settled fds s' where
  slots := slots
  fds := processes.parent
  children child member fd d pipe here isPipe := by
    rw [processes.made]
    rw [processes.children] at member
    rcases List.mem_append.mp member with old | isNew
    · have below := settled.children child old fd d pipe here isPipe
      omega
    · obtain ⟨i, isChild⟩ := List.mem_iff_getElem?.mp isNew
      have inside := (List.getElem?_eq_some_iff.mp isChild).1
      rw [processes.count] at inside
      obtain ⟨_, opens, all⟩ := processes.started i _ child (List.getElem?_eq_getElem inside) isChild
      rw [all] at here
      rcases connected_pipe entry here isPipe with ⟨_, _, _, rfl⟩ | ⟨_, _, _, rfl⟩ <;> omega

theorem SameDescriptors.settled (same : SameDescriptors s s') (settled : Settled fds s) : Settled fds s' where
  slots := by
    rw [Slots, same.curPipe, same.oldPipe]
    exact settled.slots
  fds fd := by
    rw [same.fds]
    exact settled.fds fd
  children := by
    rw [same.children, same.pipesMade]
    exact settled.children

theorem Settled.script (settled : Settled fds s) (entry : Entry fds) (forks : ∀ n, 0 < kernel.fork n)
    {script : Option (List CommandHolder)} (pipes : ScriptPipes kernel s s' script) : Settled fds s' := by
  cases pipes with
  | null same => exact same.settled settled
  | exit _ same => exact same.settled settled
  | ran _ before commands after =>
    obtain ⟨_, slots, new, processes⟩ := settled.ran entry forks before commands after
    exact processes.settled settled entry slots

/-- A pipeline that ran: `new` are its processes. -/
structure Wired (fds : Descriptors) (holders : List CommandHolder) (s s' : Shell) (new : List Child) : Prop where
  children : s'.children = s.children ++ new
  commands : new.map Child.holder = holders
  connects : ∀ i left right, new[i]? = some left → new[i + 1]? = some right → ∃ pipe,
    (left.holder.flags.redirectOut = false → left.fds.get 1 = some (.writeEnd pipe)) ∧
    (right.holder.flags.redirectIn = false → right.fds.get 0 = some (.readEnd pipe)) ∧
    (∀ k child fd, s'.children[k]? = some child → child.fds.get fd = some (.writeEnd pipe) →
      k = s.children.length + i ∧ fd = 1) ∧
    ∀ k child fd, s'.children[k]? = some child → child.fds.get fd = some (.readEnd pipe) →
      k = s.children.length + (i + 1) ∧ fd = 0
  own : ∀ child ∈ new, ∀ fd d pipe, child.fds.get fd = some d → d.pipe? = some pipe →
    (fd = 1 ∧ child.holder.flags.pipeOut = true ∧ d = .writeEnd pipe) ∨
      (fd = 0 ∧ child.holder.flags.pipeIn = true ∧ d = .readEnd pipe)
  parent : ∀ fd, s'.fds.get fd = fds.get fd
  closed : s'.closes = s.closes ++ pipeEnds s.pipesMade (s'.pipesMade - s.pipesMade)

/-- The process that has an end of a pipe made for the script. -/
theorem Processes.owner {new : List Child} (settled : Settled fds s) (entry : Entry fds)
    (processes : Processes fds holders s s' new) {k fd pipe : ℕ} {child : Child} {d : Description}
    (isChild : s'.children[k]? = some child) (here : child.fds.get fd = some d) (isPipe : d.pipe? = some pipe)
    (recent : s.pipesMade ≤ pipe) : ∃ j, k = s.children.length + j ∧
      ((fd = 1 ∧ d = .writeEnd pipe ∧ pipe = s.pipesMade + j + 1) ∨
        (fd = 0 ∧ d = .readEnd pipe ∧ pipe = s.pipesMade + j)) := by
  rw [processes.children] at isChild
  by_cases old : k < s.children.length
  · rw [List.getElem?_append_left old] at isChild
    have below := settled.children child (List.mem_of_getElem? isChild) fd d pipe here isPipe
    omega
  · rw [List.getElem?_append_right (Nat.le_of_not_lt old)] at isChild
    have inside := (List.getElem?_eq_some_iff.mp isChild).1
    rw [processes.count] at inside
    obtain ⟨_, opens, all⟩ := processes.started _ _ child (List.getElem?_eq_getElem inside) isChild
    rw [all] at here
    refine ⟨k - s.children.length, by omega, ?_⟩
    rcases connected_pipe entry here isPipe with ⟨isOne, _, isEnd, isOutput⟩ | ⟨isZero, _, isEnd, isInput⟩
    · exact .inl ⟨isOne, isEnd, isOutput⟩
    · exact .inr ⟨isZero, isEnd, isInput⟩

theorem Processes.wired {new : List Child} (settled : Settled fds s) (entry : Entry fds)
    (pipeline : Pipeline holders) (processes : Processes fds holders s s' new) :
    Wired fds holders s s' new := by
  have holderOf {i : ℕ} {child : Child} (isChild : new[i]? = some child) :
      holders[i]? = some child.holder ∧ i < holders.length := by
    have inside := (List.getElem?_eq_some_iff.mp isChild).1
    rw [processes.count] at inside
    have found := List.getElem?_eq_getElem inside
    rw [(processes.started i _ child found isChild).holder]
    exact ⟨found, inside⟩
  refine ⟨processes.children, List.ext_getElem? fun i => ?_, fun i left right isLeft isRight => ?_,
    fun child member fd d pipe here isPipe => ?_, processes.parent, ?_⟩
  · rw [List.getElem?_map]
    cases isChild : new[i]? with
    | none =>
      have outside := List.getElem?_eq_none_iff.mp isChild
      exact (List.getElem?_eq_none (processes.count ▸ outside)).symm
    | some child => exact (holderOf isChild).1.symm
  · obtain ⟨leftHolder, _⟩ := holderOf isLeft
    obtain ⟨rightHolder, inside⟩ := holderOf isRight
    have pipeOut := (pipeline.pipeOut i _ leftHolder).mpr inside
    have pipeIn := (pipeline.pipeIn (i + 1) _ rightHolder).mpr (Nat.succ_pos i)
    obtain ⟨_, leftOpens, leftAll⟩ := processes.started i _ left leftHolder isLeft
    obtain ⟨_, rightOpens, rightAll⟩ := processes.started (i + 1) _ right rightHolder isRight
    refine ⟨s.pipesMade + i + 1, fun notRedirected => ?_, fun notRedirected => ?_,
      fun k child fd isChild here => ?_, fun k child fd isChild here => ?_⟩
    · simp only [leftAll, connected, piped, notRedirected, pipeOut, Bool.false_eq_true, false_and, and_false,
        Nat.one_ne_zero, and_self, ↓reduceIte]
    · simp only [rightAll, connected, piped, notRedirected, pipeIn, Bool.false_eq_true, false_and, and_false,
        Nat.zero_ne_one, and_self, ↓reduceIte]
      rw [Nat.add_assoc]
    · obtain ⟨j, isIndex, ⟨isOne, _, same⟩ | ⟨_, other, _⟩⟩ :=
        processes.owner settled entry isChild here rfl (by omega)
      · exact ⟨by omega, isOne⟩
      · cases other
    · obtain ⟨j, isIndex, ⟨_, other, _⟩ | ⟨isZero, _, same⟩⟩ :=
        processes.owner settled entry isChild here rfl (by omega)
      · cases other
      · exact ⟨by omega, isZero⟩
  · obtain ⟨i, isChild⟩ := List.mem_iff_getElem?.mp member
    obtain ⟨_, opens, all⟩ := processes.started i _ child (holderOf isChild).1 isChild
    rw [all] at here
    exact (connected_pipe entry here isPipe).imp (fun write => ⟨write.1, write.2.1, write.2.2.1⟩)
      fun read => ⟨read.1, read.2.1, read.2.2.1⟩
  · rw [processes.made, Nat.add_sub_cancel_left]
    exact processes.closes

/-- After any scripts, `cur_pipe` and `old_pipe` are the two slots, also between the commands of the
next script; a pipeline is wired and leaves quash with the descriptors it was started with. -/
theorem pipeline_wired (kernel : Kernel) (forks : ∀ n, 0 < kernel.fork n) (fds : Descriptors)
    (entry : Entry fds) (scripts : List Script) :
    ∃ s, runScripts kernel scripts (.initial fds) = some s ∧ Slots s ∧ (∀ fd, s.fds.get fd = fds.get fd) ∧
      (∀ holders, ∃ s₁ s₂, checkJobsBgStatus kernel s.createGlobals = some s₁ ∧
        createProcesses kernel holders (s₁.pipe s₁.oldPipe) = some s₂ ∧ Slots s₂) ∧
      ∀ command holders, Pipeline holders → ∃ s', runScript kernel command (some holders) s = some s' ∧
        Slots s' ∧ ((isExit holders = true ∧ SameDescriptors s s') ∨
          (isExit holders = false ∧ ∃ new, Wired fds holders s s' new)) := by
  obtain ⟨s, ran, table, idle, settled⟩ : ∃ s, runScripts kernel scripts (.initial fds) = some s ∧
      JobTable s.bgJobs ∧ s.currentJob = [] ∧ Settled fds s := by
    refine runScripts_inv (fun s command holders inv => ?_) scripts ⟨.nil, rfl, settled_initial fds⟩
    obtain ⟨s', ran, table, idle, _, pipes⟩ := runScript_spec kernel command holders inv.1 inv.2.1
    exact ⟨s', ran, table, idle, inv.2.2.script entry forks pipes⟩
  refine ⟨s, ran, settled.slots, settled.fds, fun holders => ?_, fun command holders pipeline => ?_⟩
  · obtain ⟨s₁, s₂, checked, created, _, _, _, same, _⟩ := commands_spec kernel holders table idle
    exact ⟨s₁, s₂, checked, created, (settled.ran entry forks same created (.refl _)).1⟩
  · obtain ⟨s', called, _, _, _, pipes⟩ := runScript_spec kernel command (some holders) table idle
    refine ⟨s', called, (settled.script entry forks pipes).slots, ?_⟩
    cases pipes with
    | exit exits same => exact .inl ⟨exits, same⟩
    | ran stays before commands after =>
      obtain ⟨_, _, new, processes⟩ := settled.ran entry forks before commands after
      exact .inr ⟨stays, new, processes.wired settled entry pipeline⟩

/-- The standard descriptors, with nothing else open. -/
theorem entry_standard :
    Entry [some (.inherited 0), some (.inherited 1), some (.inherited 2)] where
  input := by decide
  output := by decide
  noPipe fd d here := by
    match fd with
    | 0 | 1 | 2 =>
      obtain rfl := Option.some.inj here
      rfl
    | _ + 3 => exact absurd here nofun

/-- A pipeline of two commands in the background, after a command that writes a file. -/
theorem pipeline_wired_two :
    let kernel : Kernel := ⟨fun n => n + 100, fun _ pid => pid, fun _ _ _ => true⟩
    let fds : Descriptors := [some (.inherited 0), some (.inherited 1), some (.inherited 2)]
    let first : CommandHolder := ⟨none, some ['f'], ⟨false, true, false, false, false, false⟩, .generic⟩
    let left : CommandHolder := ⟨none, none, ⟨false, false, false, false, true, true⟩, .echo⟩
    let right : CommandHolder := ⟨none, none, ⟨false, false, false, true, false, true⟩, .generic⟩
    ∃ s s' new, runScripts kernel [(['a'], some [first])] (.initial fds) = some s ∧
      runScript kernel ['b'] (some [left, right]) s = some s' ∧ Wired fds [left, right] s s' new := by
  intro kernel fds first left right
  have forks (n : ℕ) : 0 < kernel.fork n := by
    change (0 : ℤ) < n + 100
    omega
  have pipeline : Pipeline [left, right] := by
    refine ⟨nofun, fun i holder here => ?_, fun i holder here => ?_⟩ <;>
    match i with
    | 0 | 1 =>
      obtain rfl := Option.some.inj here
      decide
    | _ + 2 => exact absurd here nofun
  obtain ⟨s, ran, _, _, _, wired⟩ := pipeline_wired kernel forks fds entry_standard [(['a'], some [first])]
  obtain ⟨s', called, _, ⟨exits, _⟩ | ⟨_, new, isWired⟩⟩ := wired ['b'] [left, right] pipeline
  · exact absurd exits (by decide)
  · exact ⟨s, s', new, ran, called, isWired⟩

end OsLabs.Quash
