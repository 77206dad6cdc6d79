import OsLabs.Proofs.Quash.Scripts

/-! # Pipes and descriptors

Between two commands of a script quash holds the ends of one pipe more than it had at the start of
the script: the pipe that the next command may read from. `create_process` makes the next pipe, and
closes the one before.
-/

namespace OsLabs.Quash

open DescriptorTable

variable {base fds : Descriptors} {ends : ℕ × ℕ} {pipe : ℕ} {kernel : Kernel} {holder : CommandHolder}
  {s : Shell}

/-- The descriptors are those of `base` and the two ends of a pipe. -/
structure WithPipe (base fds : Descriptors) (ends : ℕ × ℕ) (pipe : ℕ) : Prop where
  readFree : base.get ends.1 = none
  writeFree : base.get ends.2 = none
  ne : ends.1 ≠ ends.2
  get : ∀ fd, fds.get fd = if fd = ends.1 then some (.readEnd pipe)
    else if fd = ends.2 then some (.writeEnd pipe) else base.get fd

theorem WithPipe.readEnd (held : WithPipe base fds ends pipe) : fds.get ends.1 = some (.readEnd pipe) := by
  rw [held.get, if_pos rfl]

theorem WithPipe.writeEnd (held : WithPipe base fds ends pipe) : fds.get ends.2 = some (.writeEnd pipe) := by
  rw [held.get, if_neg held.ne.symm, if_pos rfl]

theorem WithPipe.other (held : WithPipe base fds ends pipe) {fd : ℕ} (neither : ¬ (fd = ends.1 ∨ fd = ends.2)) :
    fds.get fd = base.get fd := by
  obtain ⟨notRead, notWrite⟩ := not_or.mp neither
  rw [held.get, if_neg notRead, if_neg notWrite]

theorem WithPipe.end_free (held : WithPipe base fds ends pipe) {fd : ℕ} (isEnd : fd = ends.1 ∨ fd = ends.2) :
    base.get fd = none := by
  rcases isEnd with rfl | rfl
  · exact held.readFree
  · exact held.writeFree

/-- Closing both ends of a pipe. -/
theorem get_closeEnds (fds : Descriptors) (ends : ℕ × ℕ) (fd : ℕ) :
    ((fds.close ends.1).close ends.2).get fd = if fd = ends.1 ∨ fd = ends.2 then none else fds.get fd := by
  rw [get_close, get_close]
  split
  · next isWrite => rw [if_pos (.inr isWrite)]
  · next notWrite => exact if_congr (or_iff_left notWrite).symm rfl rfl

/-- A descriptor that is open in `base` is none of the ends. -/
theorem WithPipe.ne_of_open (held : WithPipe base fds ends pipe) {fd : ℕ} (isOpen : base.get fd ≠ none) :
    fd ≠ ends.1 ∧ fd ≠ ends.2 :=
  ⟨fun same => isOpen (same ▸ held.readFree), fun same => isOpen (same ▸ held.writeFree)⟩

/-- What is free with the pipe is free without it. -/
theorem WithPipe.free (held : WithPipe base fds ends pipe) {fd : ℕ} (isFree : fds.get fd = none) :
    base.get fd = none ∧ fd ≠ ends.1 ∧ fd ≠ ends.2 := by
  rw [held.get] at isFree
  split at isFree
  · exact absurd isFree nofun
  · next notRead =>
    split at isFree
    · exact absurd isFree nofun
    · next notWrite => exact ⟨isFree, notRead, notWrite⟩

theorem withPipe_open (fds : Descriptors) (pipe : ℕ) :
    WithPipe fds ((fds.open (.readEnd pipe)).2.open (.writeEnd pipe)).2
      ((fds.open (.readEnd pipe)).1, ((fds.open (.readEnd pipe)).2.open (.writeEnd pipe)).1) pipe := by
  have second := get_lowest (fds.open (.readEnd pipe)).2
  rw [get_open] at second
  have ne : (fds.open (.readEnd pipe)).2.lowest ≠ fds.lowest := by
    intro same
    rw [if_pos same] at second
    exact absurd second nofun
  rw [if_neg ne] at second
  refine ⟨get_lowest fds, second, ne.symm, fun fd => ?_⟩
  rw [get_open, get_open]
  change (if fd = (fds.open (.readEnd pipe)).2.lowest then _ else if fd = fds.lowest then _ else _) =
    if fd = fds.lowest then _ else if fd = (fds.open (.readEnd pipe)).2.lowest then _ else _
  split
  · next isWrite => rw [if_neg (isWrite ▸ ne)]
  · next notWrite => rfl

/-- Closing both ends gives back the descriptors without the pipe. -/
theorem WithPipe.close (held : WithPipe base fds ends pipe) (fd : ℕ) :
    ((fds.close ends.1).close ends.2).get fd = base.get fd := by
  rw [get_closeEnds]
  split
  · next isEnd => exact (held.end_free isEnd).symm
  · next neither => exact held.other neither

/-- A pipe made on top of another leaves its ends where they are. -/
theorem WithPipe.still {fds' : Descriptors} {ends' : ℕ × ℕ} {pipe' : ℕ} (held : WithPipe base fds ends pipe)
    (next : WithPipe fds fds' ends' pipe') :
    fds'.get ends.1 = some (.readEnd pipe) ∧ fds'.get ends.2 = some (.writeEnd pipe) := by
  have read := next.ne_of_open (held.readEnd ▸ nofun : fds.get ends.1 ≠ none)
  have write := next.ne_of_open (held.writeEnd ▸ nofun : fds.get ends.2 ≠ none)
  constructor
  · rw [next.get, if_neg read.1, if_neg read.2, held.readEnd]
  · rw [next.get, if_neg write.1, if_neg write.2, held.writeEnd]

/-- A pipe made on top of another stays when the other is closed. -/
theorem WithPipe.shift {fds' : Descriptors} {ends' : ℕ × ℕ} {pipe' : ℕ}
    (held : WithPipe base fds ends pipe) (next : WithPipe fds fds' ends' pipe') :
    WithPipe base ((fds'.close ends.1).close ends.2) ends' pipe' := by
  obtain ⟨readFree, readNe, readNe'⟩ := held.free next.readFree
  obtain ⟨writeFree, writeNe, writeNe'⟩ := held.free next.writeFree
  refine ⟨readFree, writeFree, next.ne, fun fd => ?_⟩
  rw [get_closeEnds, next.get]
  split
  · next isEnd =>
    have notRead : fd ≠ ends'.1 := by rcases isEnd with rfl | rfl <;> [exact readNe.symm; exact readNe'.symm]
    have notWrite : fd ≠ ends'.2 := by rcases isEnd with rfl | rfl <;> [exact writeNe.symm; exact writeNe'.symm]
    rw [if_neg notRead, if_neg notWrite, held.end_free isEnd]
  · next neither => rw [held.other neither]

/-! ## The child -/

theorem redirect_spec {opens : Bool} {file : Description} {fd : ℕ} (isOpen : fds.get fd ≠ none) (fd' : ℕ) :
    (redirect opens file fd fds).get fd' = if fd' = fd ∧ opens = true then some file else fds.get fd' := by
  cases opens with
  | false =>
    rw [if_neg fun both => Bool.false_ne_true both.2]
    rfl
  | true =>
    have ne : fd ≠ fds.lowest := fun same => isOpen (same ▸ get_lowest fds)
    have here : (fds.open file).2.get fds.lowest = some file := by
      rw [get_open, if_pos rfl]
    change (((fds.open file).2.dup fds.lowest fd).close fds.lowest).get fd' = _
    rw [get_close, get_dup here, get_open]
    by_cases target : fd' = fd
    · rw [if_neg (target ▸ ne : fd' ≠ fds.lowest), if_pos target, if_pos ⟨target, rfl⟩]
    · have other : ¬ (fd' = fd ∧ true = true) := fun both => target both.1
      rw [if_neg target, if_neg other]
      by_cases new : fd' = fds.lowest
      · rw [if_pos new, new, get_lowest]
      · rw [if_neg new, if_neg new]

/-- A redirection that a flag asks for. -/
theorem redirect_flag (flag opens : Bool) (file : Description) {fd : ℕ} (isOpen : fds.get fd ≠ none)
    (fd' : ℕ) : (if flag then redirect opens file fd fds else fds).get fd' =
      if fd' = fd ∧ flag = true ∧ opens = true then some file else fds.get fd' := by
  cases flag with
  | false => rw [if_neg Bool.false_ne_true, if_neg fun both => Bool.false_ne_true both.2.1]
  | true =>
    rw [if_pos rfl, redirect_spec isOpen]
    exact if_congr (and_congr_right fun _ => (and_iff_right rfl).symm) rfl rfl

/-- A duplication that a flag asks for. -/
theorem dup_flag (flag : Bool) {fd : ℕ} (fd' : ℕ) {d : Description} (isOpen : fds.get fd = some d) (fd₂ : ℕ) :
    (if flag then fds.dup fd fd' else fds).get fd₂ =
      if fd₂ = fd' ∧ flag = true then some d else fds.get fd₂ := by
  cases flag with
  | false => rw [if_neg Bool.false_ne_true, if_neg fun both => Bool.false_ne_true both.2]
  | true =>
    rw [if_pos rfl, get_dup isOpen]
    exact if_congr (and_iff_left rfl).symm rfl rfl

/-- What a child has open before its redirections. -/
def piped (base : Descriptors) (flags : Flags) (input output : ℕ) (fd : ℕ) : Option Description :=
  if fd = 1 ∧ flags.pipeOut = true then some (.writeEnd output)
  else if fd = 0 ∧ flags.pipeIn = true then some (.readEnd input)
  else base.get fd

theorem piped_ne_none {flags : Flags} {input output fd : ℕ} (isOpen : base.get fd ≠ none) :
    piped base flags input output fd ≠ none := by
  rw [piped]
  split
  · nofun
  · split
    · nofun
    · exact isOpen

/-- What is free in `base` is free in the child: neither input nor output. -/
theorem piped_of_free {flags : Flags} {input output fd : ℕ} (reads : base.get 0 ≠ none)
    (writes : base.get 1 ≠ none) (isFree : base.get fd = none) : piped base flags input output fd = none := by
  rw [piped, if_neg, if_neg, isFree]
  · rintro ⟨rfl, _⟩
    exact reads isFree
  · rintro ⟨rfl, _⟩
    exact writes isFree

theorem childPipes_spec {flags : Flags} {old cur : ℕ} (reads : base.get 0 ≠ none) (writes : base.get 1 ≠ none)
    (held : WithPipe base fds (s.pipes s.oldPipe) old)
    (next : WithPipe fds s.fds (s.pipes s.curPipe) cur) (fd : ℕ) :
    (childPipes flags s).get fd = piped base flags old cur fd := by
  obtain ⟨readFree, _⟩ := held.free next.readFree
  obtain ⟨writeFree, _⟩ := held.free next.writeFree
  have first (fd : ℕ) := dup_flag flags.pipeIn 0 (held.still next).1 fd
  have writeCur : (if flags.pipeIn then s.fds.dup (s.pipes s.oldPipe).1 0 else s.fds).get
      (s.pipes s.curPipe).2 = some (.writeEnd cur) := by
    rw [first, if_neg, next.writeEnd]
    rintro ⟨isZero, _⟩
    exact reads (isZero ▸ writeFree)
  have second (fd : ℕ) := dup_flag flags.pipeOut 1 writeCur fd
  rw [childPipes, get_closeEnds, get_closeEnds]
  split
  · next isOldEnd => exact (piped_of_free reads writes (held.end_free isOldEnd)).symm
  · next notOldEnd =>
    split
    · next isEnd =>
      have isFree : base.get fd = none := by rcases isEnd with rfl | rfl <;> [exact readFree; exact writeFree]
      exact (piped_of_free reads writes isFree).symm
    · next notEnd => rw [second, first, next.other notEnd, held.other notOldEnd, piped]

/-- What a child has open when its program starts: its redirections, its pipes, and what quash had open
at the start of the script. -/
def connected (base : Descriptors) (holder : CommandHolder) (input output : ℕ)
    (opens : Option (List Char) → Mode → Bool) (fd : ℕ) : Option Description :=
  if fd = 1 ∧ holder.flags.redirectOut = true ∧ opens holder.redirectOut holder.flags.outMode = true then
    some (.file holder.redirectOut holder.flags.outMode)
  else if fd = 0 ∧ holder.flags.redirectIn = true ∧ opens holder.redirectIn .read = true then
    some (.file holder.redirectIn .read)
  else piped base holder.flags input output fd

theorem childDescriptors_spec {old cur : ℕ} (reads : base.get 0 ≠ none) (writes : base.get 1 ≠ none)
    (held : WithPipe base fds (s.pipes s.oldPipe) old)
    (next : WithPipe fds s.fds (s.pipes s.curPipe) cur) (fd : ℕ) :
    (childDescriptors kernel holder s).get fd =
      connected base holder old cur (kernel.opens s.forks) fd := by
  have pipes (fd : ℕ) : (childPipes holder.flags s).get fd = _ := childPipes_spec reads writes held next fd
  have input (fd : ℕ) := redirect_flag holder.flags.redirectIn (kernel.opens s.forks holder.redirectIn .read)
    (.file holder.redirectIn .read) (pipes 0 ▸ piped_ne_none reads) fd
  have stillOpen : (if holder.flags.redirectIn then redirect (kernel.opens s.forks holder.redirectIn .read)
      (.file holder.redirectIn .read) 0 (childPipes holder.flags s)
    else childPipes holder.flags s).get 1 ≠ none := by
    rw [input, if_neg fun both => Nat.one_ne_zero both.1, pipes]
    exact piped_ne_none writes
  rw [childDescriptors, redirect_flag _ _ _ stillOpen, input, pipes]
  rfl

/-! ## Commands -/

/-- `cur_pipe` and `old_pipe` are 0 and 1, in one order or the other. -/
def Slots (s : Shell) : Prop := (s.curPipe = 0 ∧ s.oldPipe = 1) ∨ (s.curPipe = 1 ∧ s.oldPipe = 0)

/-- Between two commands: `pipe` is the last pipe made, and the only one open. -/
structure Between (base : Descriptors) (s : Shell) (pipe : ℕ) : Prop where
  slots : Slots s
  held : WithPipe base s.fds (s.pipes s.oldPipe) pipe
  made : s.pipesMade = pipe + 1

/-- The ends of `n` pipes, in the order in which they are closed. -/
def pipeEnds (first n : ℕ) : List (Option Description) :=
  (List.range' first n).flatMap fun pipe => [some (.readEnd pipe), some (.writeEnd pipe)]

theorem pipeEnds_succ (first n : ℕ) :
    pipeEnds first (n + 1) = [some (.readEnd first), some (.writeEnd first)] ++ pipeEnds (first + 1) n := by
  rw [pipeEnds, List.range'_succ, List.flatMap_cons, pipeEnds]

theorem Slots.ne (slots : Slots s) : s.oldPipe ≠ s.curPipe := by
  rcases slots with ⟨cur, old⟩ | ⟨cur, old⟩ <;> rw [cur, old] <;> decide

/-- The first pipe of a script. -/
theorem between_pipe (slots : Slots s) : Between s.fds (s.pipe s.oldPipe) s.pipesMade where
  slots := slots
  held := by
    change WithPipe s.fds _ (Function.update s.pipes s.oldPipe _ s.oldPipe) s.pipesMade
    rw [Function.update_self]
    exact withPipe_open s.fds s.pipesMade
  made := rfl

/-- Closing an open pipe finds both of its ends. -/
theorem closePipe_closes {slot : ℕ} (ne : (s.pipes slot).1 ≠ (s.pipes slot).2)
    (read : s.fds.get (s.pipes slot).1 = some (.readEnd pipe))
    (write : s.fds.get (s.pipes slot).2 = some (.writeEnd pipe)) :
    (s.closePipe slot).closes = s.closes ++ [some (.readEnd pipe), some (.writeEnd pipe)] := by
  have second : (s.fds.close (s.pipes slot).1).get (s.pipes slot).2 = some (.writeEnd pipe) := by
    rw [get_close, if_neg ne.symm, write]
  change (s.closes ++ [s.fds.get (s.pipes slot).1]) ++
    [(s.fds.close (s.pipes slot).1).get (s.pipes slot).2] = _
  rw [read, second, List.append_assoc]
  rfl

/-- The process of a command, with the pipe it may read and the pipe it may write. -/
structure Started (base : Descriptors) (command : CommandHolder) (input output : ℕ) (child : Child) : Prop where
  holder : child.holder = command
  fds : ∃ opens, ∀ fd, child.fds.get fd = connected base command input output opens fd

theorem Between.process (between : Between base s pipe) (reads : base.get 0 ≠ none)
    (writes : base.get 1 ≠ none) (forks : 0 < kernel.fork s.forks) (holder : CommandHolder) :
    Between base (s.process kernel holder) (pipe + 1) ∧
      (∃ child, (s.process kernel holder).children = s.children ++ [child] ∧
        Started base holder pipe (pipe + 1) child) ∧
      (s.process kernel holder).closes = s.closes ++ [some (.readEnd pipe), some (.writeEnd pipe)] := by
  let s₁ := s.pipe s.curPipe
  have oldPipe : s₁.pipes s.oldPipe = s.pipes s.oldPipe := Function.update_of_ne between.slots.ne ..
  have held : WithPipe base s.fds (s₁.pipes s₁.oldPipe) pipe := oldPipe.symm ▸ between.held
  have next : WithPipe s.fds s₁.fds (s₁.pipes s₁.curPipe) (pipe + 1) := by
    have opened := withPipe_open s.fds s.pipesMade
    change WithPipe s.fds _ (Function.update s.pipes s.curPipe _ s.curPipe) (pipe + 1)
    rw [Function.update_self, ← between.made]
    exact opened
  have slots : Slots (s.process kernel holder) := by
    rcases between.slots with ⟨cur, _⟩ | ⟨cur, _⟩
    · exact .inr ⟨congrArg (fun slot => (slot + 1) % 2) cur, cur⟩
    · exact .inl ⟨congrArg (fun slot => (slot + 1) % 2) cur, cur⟩
  have children : (s₁.fork kernel holder).children =
      s.children ++ [⟨kernel.fork s.forks, holder, childDescriptors kernel holder s₁⟩] := if_pos forks
  refine ⟨⟨slots, held.shift next, ?_⟩, ⟨_, children, rfl, kernel.opens s.forks, ?_⟩, ?_⟩
  · change s.pipesMade + 1 = pipe + 1 + 1
    rw [between.made]
  · exact childDescriptors_spec reads writes held next
  · exact closePipe_closes (s := s₁.fork kernel holder) held.ne (held.still next).1 (held.still next).2

/-- The commands of a script: each process reads the pipe that the one before writes. -/
theorem createProcesses_pipes (forks : ∀ n, 0 < kernel.fork n) (reads : base.get 0 ≠ none)
    (writes : base.get 1 ≠ none) (holders : List CommandHolder) (between : Between base s pipe) :
    ∃ s' new, createProcesses kernel holders s = some s' ∧ Between base s' (pipe + holders.length) ∧
      s'.children = s.children ++ new ∧ new.length = holders.length ∧
      (∀ i holder child, holders[i]? = some holder → new[i]? = some child →
        Started base holder (pipe + i) (pipe + i + 1) child) ∧
      s'.closes = s.closes ++ pipeEnds pipe holders.length := by
  induction holders generalizing s pipe with
  | nil =>
    refine ⟨s, [], rfl, between, (List.append_nil _).symm, rfl, fun i h c isHolder _ => ?_, ?_⟩
    · rw [List.getElem?_nil] at isHolder
      exact absurd isHolder nofun
    · exact (List.append_nil s.closes).symm
  | cons holder holders ih =>
    obtain ⟨signals, created⟩ := createProcess_spec kernel holder s
    obtain ⟨between', ⟨child, children, started⟩, closes⟩ :=
      between.process reads writes (forks s.forks) holder
    have after : Between base { s.process kernel holder with signals } (pipe + 1) := { between' with }
    obtain ⟨s', new, rest, last, children', count, all, closes'⟩ := ih after
    refine ⟨s', child :: new, ?_, ?_, ?_, congrArg Nat.succ count, fun i h c isHolder isChild => ?_, ?_⟩
    · rw [createProcesses, created]
      exact rest
    · rw [List.length_cons, Nat.add_comm holders.length, ← Nat.add_assoc]
      exact last
    · rw [children']
      change (s.process kernel holder).children ++ new = _
      rw [children, List.append_assoc]
      rfl
    · cases i with
      | zero =>
        obtain rfl := Option.some.inj isHolder
        obtain rfl := Option.some.inj isChild
        exact started
      | succ i =>
        have later := all i h c isHolder isChild
        rw [Nat.add_right_comm pipe 1 i] at later
        exact later
    · rw [closes', List.length_cons, pipeEnds_succ, ← List.append_assoc, ← closes]

end OsLabs.Quash
