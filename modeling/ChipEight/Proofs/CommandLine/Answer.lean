import ChipEight.Proofs.CommandLine.Request
import ChipEight.Proofs.CommandLine.Transcript
import ChipEight.Proofs.Session.RandomDraws

/-!
# Answers of the command line

The command line adds nothing to what it is asked for. A run is the run of a session that holds the
program, the settings and the breakpoints, and its answer is the transcript of that run, or nothing
but an error if the program is too large or the run fails. A listing is the listing of the program.

What does not matter to the run does not matter to the answer either: in which order breakpoints are
given and how often, and, as long as no random byte is drawn or the seed is given, what the host has
to offer as randomness.

## Main definitions

- `Command.session`: the session that a run on the command line is
- `Command.answer?`: the answer to a list of arguments

## Main statements

- `Command.respondRun_of_ok`, `Command.respondRun_of_not_ok`: the answer to a run, in terms of the
  session
- `Command.answer?_run_iff`, `Command.answer?_disassemble_iff`: which arguments are answered, and
  how
- `Command.answers_are_exact`: what each command answers
-/

namespace ChipEight

/-! ## Breakpoints -/

/-- Breakpoints that are set one after the other are set in whatever order they come. -/
theorem Session.foldl_addBreakpoint (s : Session) (breakpoints : List Word) :
    ∃ set, breakpoints.foldl addBreakpoint s = { s with breakpoints := set } ∧
      ∀ a, a ∈ set ↔ a ∈ breakpoints ∨ a ∈ s.breakpoints := by
  induction breakpoints generalizing s with
  | nil => exact ⟨s.breakpoints, rfl, by simp⟩
  | cons b breakpoints ih =>
    obtain ⟨set, hfold, hmem⟩ := ih (s.addBreakpoint b)
    refine ⟨set, hfold, fun a => ?_⟩
    rw [hmem, addBreakpoint, Std.ExtTreeSet.mem_insert, Std.LawfulEqCmp.compare_eq_iff_eq,
      List.mem_cons, eq_comm, or_assoc, or_left_comm]

theorem ofList_congr {list list' : List Word} (h : ∀ a, a ∈ list ↔ a ∈ list') :
    Std.ExtTreeSet.ofList list = Std.ExtTreeSet.ofList list' := by
  apply Std.ExtTreeSet.ext_mem
  intro a
  simp only [Std.ExtTreeSet.mem_ofList, List.contains_iff_mem, h]

namespace Command

/-! ## Runs -/

/-- The random source of a run: that of the seed, or what the host has to offer. -/
def source (settings : Settings) (entropy : RandomSource) : RandomSource :=
  (settings.seed?.map RandomSource.ofSeed).getD entropy

/-- The session that a run on the command line is: a machine that was switched on and has the
program in its memory, with the given settings and breakpoints. -/
def session (program : Array UInt8) (settings : Settings) (breakpoints : List Word)
    (entropy : RandomSource) : Session :=
  .fresh (.fresh (.image program) (source settings entropy)) settings (.ofList breakpoints)

section Run

variable {program : Array UInt8} {settings : Settings} {breakpoints : List Word}
  {entropy : RandomSource}

theorem start_of_le (h : program.size ≤ 3584) :
    Session.start program settings entropy
      = .ok (.fresh (.fresh (.image program) (source settings entropy)) settings) := by
  rw [Session.start, Machine.load_of_le _ h]
  rfl

theorem start_of_lt (h : 3584 < program.size) :
    Session.start program settings entropy = .error (.programTooLarge program.size) := by
  rw [Session.start, Machine.load_of_lt _ h]
  rfl

theorem respondRun_of_lt (h : 3584 < program.size) :
    respondRun program settings breakpoints entropy
      = .failure "Failed to load ROM into CHIP-8 memory"
          (Fault.programTooLarge program.size).message := by
  rw [respondRun, start_of_lt h]

/-- The answer to a run of a program that fits. -/
theorem respondRun_of_le (h : program.size ≤ 3584) :
    respondRun program settings breakpoints entropy =
      match (session program settings breakpoints entropy).run.verdict with
      | .error fault => .failure "Chip8 Execution error" fault.message
      | .ok report =>
        .success (transcript report
          (session program settings breakpoints entropy).run.session.machine) := by
  obtain ⟨set, hfold, hmem⟩ := Session.foldl_addBreakpoint
    (.fresh (.fresh (.image program) (source settings entropy)) settings) breakpoints
  have hset : set = .ofList breakpoints := by
    apply Std.ExtTreeSet.ext_mem
    intro a
    simp [hmem, Session.fresh]
  rw [respondRun, start_of_le h]
  simp only [hfold, hset]
  rfl

/-- A run that succeeds is answered with its transcript. -/
theorem respondRun_of_ok {report : Report} (h : program.size ≤ 3584)
    (hverdict : (session program settings breakpoints entropy).run.verdict = .ok report) :
    respondRun program settings breakpoints entropy = .success
      (transcript report (session program settings breakpoints entropy).run.session.machine) := by
  rw [respondRun_of_le h, hverdict]

/-- Nothing is printed if there is no report. -/
theorem respondRun_of_not_ok (h : ¬(program.size ≤ 3584 ∧
      ∃ report, (session program settings breakpoints entropy).run.verdict = .ok report)) :
    (respondRun program settings breakpoints entropy).exitCode = 1 ∧
      (respondRun program settings breakpoints entropy).output = [] := by
  rcases Nat.lt_or_ge 3584 program.size with hlarge | hfits
  · rw [respondRun_of_lt hlarge]
    exact ⟨rfl, rfl⟩
  · rw [respondRun_of_le hfits]
    cases hverdict : (session program settings breakpoints entropy).run.verdict with
    | ok report => exact absurd ⟨hfits, report, hverdict⟩ h
    | error fault => exact ⟨rfl, rfl⟩

/-- The breakpoints matter only as a set. -/
theorem respondRun_congr {breakpoints' : List Word}
    (h : ∀ a, a ∈ breakpoints' ↔ a ∈ breakpoints) :
    respondRun program settings breakpoints' entropy
      = respondRun program settings breakpoints entropy := by
  rcases Nat.lt_or_ge 3584 program.size with hlarge | hfits
  · rw [respondRun_of_lt hlarge, respondRun_of_lt hlarge]
  · rw [respondRun_of_le hfits, respondRun_of_le hfits, session, session, ofList_congr h]

/-- No instruction of a run asks for a random byte. -/
def DrawsNothing (s : Session) : Prop :=
  ∀ j < s.calls.length, ∀ i, (s.machine.after j).performed? = some i → i.operation ≠ .random

/-- A run that draws nothing goes the same way with any random source. -/
theorem run_of_drawsNothing {s : Session} (h : DrawsNothing s) (random : RandomSource) :
    (s.reseed random).run.verdict = s.run.verdict ∧
      ∃ random', (s.reseed random).run.session.machine
        = s.run.session.machine.reseed random' := by
  -- Nothing that a run looks at is in the random source, and no step takes a byte from it.
  have hlook : ∀ {m n : Machine}, m.Reseeded n → m.pc = n.pc ∧ m.halted = n.halted := by
    rintro m n ⟨random, rfl⟩
    exact ⟨rfl, rfl⟩
  have hstep : ∀ j < s.calls.length, ∀ n, (s.machine.after j).Reseeded n →
      Step.Match Machine.Reseeded (s.machine.after j).step n.step := by
    rintro j hj n ⟨random, rfl⟩
    refine ((s.machine.after j).match_reseed random .step ?_).step
    exact fun i hi hrandom => absurd hrandom (h j hj i hi)
  obtain ⟨hverdict, -, n, hsession, random', rfl⟩ :=
    Session.run_correspond hlook hstep (n := s.machine.reseed random) ⟨random, rfl⟩
  exact ⟨hverdict, random', congrArg Session.machine hsession⟩

/-- The host's randomness matters only to a run without a seed that draws from it. -/
theorem respondRun_entropy {entropy' : RandomSource}
    (h : settings.seed? ≠ none ∨ DrawsNothing (session program settings breakpoints entropy)) :
    respondRun program settings breakpoints entropy'
      = respondRun program settings breakpoints entropy := by
  rcases Nat.lt_or_ge 3584 program.size with hlarge | hfits
  · rw [respondRun_of_lt hlarge, respondRun_of_lt hlarge]
  · rw [respondRun_of_le hfits, respondRun_of_le hfits]
    -- With a seed there is but one random source, and otherwise nothing is taken from it.
    rcases h with hseed | hdraws
    · obtain ⟨seed, hseed⟩ := Option.ne_none_iff_exists'.mp hseed
      simp only [session, source, hseed, Option.map_some, Option.getD_some]
    · obtain ⟨hverdict, random', hmachine⟩ :=
        run_of_drawsNothing hdraws (source settings entropy')
      have hsession :
          (session program settings breakpoints entropy).reseed (source settings entropy')
            = session program settings breakpoints entropy' := rfl
      rw [hsession] at hverdict hmachine
      rw [hverdict, hmachine]
      rfl

end Run

/-! ## Answers to arguments -/

/-- The answer to a list of arguments, if they are understood. The files that can be read are given
by their paths. -/
def answer? (files : String → Except String (Array UInt8)) (entropy : RandomSource)
    (args : List String) : Option Response :=
  (parse? args).map fun c => c.respond (files c.path) entropy

section Arguments

variable {files : String → Except String (Array UInt8)} {entropy : RandomSource}
  {args args' : List String} {response : Response} {name : String}

theorem answer?_eq_some_iff :
    answer? files entropy args = some response ↔
      ∃ c, parse? args = some c ∧ response = c.respond (files c.path) entropy := by
  rw [answer?, Option.map_eq_some_iff]
  simp only [eq_comm]

/-- Arguments after `run` are answered if they can be read, and then as they are read. -/
theorem answer?_run_iff (hname : name ∈ ["run", "r"]) :
    answer? files entropy (name :: args) = some response ↔
      ∃ as path maxSteps? seed? breakpoints,
        Argument.scan ["--max-steps", "--seed", "--break"] args = some as ∧
          Argument.AsksForRun as path maxSteps? seed? breakpoints ∧
          response = (Command.run path
            { maxSteps := maxSteps?.getD 1000000, seed? := seed?.map UInt64.ofNat }
            (breakpoints.map UInt16.ofNat)).respond (files path) entropy := by
  rw [answer?_eq_some_iff, parse?_run hname]
  constructor
  · rintro ⟨c, hparse, rfl⟩
    obtain ⟨as, path, maxSteps?, seed?, breakpoints, hscan, hasks, rfl⟩ :=
      parseRun?_eq_some_iff.mp hparse
    exact ⟨as, path, maxSteps?, seed?, breakpoints, hscan, hasks, rfl⟩
  · rintro ⟨as, path, maxSteps?, seed?, breakpoints, hscan, hasks, rfl⟩
    exact ⟨_, parseRun?_eq_some_iff.mpr
      ⟨as, path, maxSteps?, seed?, breakpoints, hscan, hasks, rfl⟩, rfl⟩

/-- So are arguments after `disasm`. -/
theorem answer?_disassemble_iff (hname : name ∈ ["disasm", "d"]) :
    answer? files entropy (name :: args) = some response ↔
      ∃ as path, Argument.scan [] args = some as ∧ Argument.onlyPath? as = some path ∧
        response = (Command.disassemble path).respond (files path) entropy := by
  rw [answer?_eq_some_iff, parse?_disassemble hname]
  constructor
  · rintro ⟨c, hparse, rfl⟩
    obtain ⟨as, path, hscan, hpath, rfl⟩ := parseDisassemble?_eq_some_iff.mp hparse
    exact ⟨as, path, hscan, hpath, rfl⟩
  · rintro ⟨as, path, hscan, hpath, rfl⟩
    exact ⟨_, parseDisassemble?_eq_some_iff.mpr ⟨as, path, hscan, hpath, rfl⟩, rfl⟩

theorem respond_run_congr {path : String} {settings : Settings}
    {breakpoints breakpoints' : List Word} {file : Except String (Array UInt8)}
    (h : ∀ a, a ∈ breakpoints' ↔ a ∈ breakpoints) :
    (Command.run path settings breakpoints').respond file entropy
      = (Command.run path settings breakpoints).respond file entropy := by
  cases file with
  | error cause => rfl
  | ok program => exact respondRun_congr h

/-- How breakpoints are given does not matter. -/
theorem answer?_of_sameRequest {as bs : List Argument}
    (has : Argument.scan ["--max-steps", "--seed", "--break"] args = some as)
    (hbs : Argument.scan ["--max-steps", "--seed", "--break"] args' = some bs)
    (h : Argument.SameRequest as bs) (hname : name ∈ ["run", "r"])
    (hanswer : answer? files entropy (name :: args) = some response) :
    answer? files entropy (name :: args') = some response := by
  obtain ⟨as', path, maxSteps?, seed?, breakpoints, hscan, hasks, rfl⟩ :=
    (answer?_run_iff hname).mp hanswer
  obtain rfl : as = as' := Option.some.inj (has.symm.trans hscan)
  obtain ⟨breakpoints', hasks', hmem⟩ := hasks.congr h
  have hwords : ∀ a, a ∈ breakpoints.map UInt16.ofNat ↔ a ∈ breakpoints'.map UInt16.ofNat := by
    simp only [List.mem_map, hmem, implies_true]
  exact (answer?_run_iff hname).mpr ⟨bs, path, maxSteps?, seed?, breakpoints', hbs, hasks',
    respond_run_congr hwords⟩

end Arguments

/-! ## What is answered -/

/-- **The command line reports exactly what it was asked for.**

1. A run is answered with success exactly if the program fits and the run of the session succeeds.
   Then its transcript is printed and nothing else, and otherwise nothing is. The answer is the same
   for breakpoints that are the same as a set; and for any randomness of the host, if there is a
   seed or no instruction draws a byte.
2. Transcripts with the same text are those of the same report, and of machines that agree in all
   that is shown.
3. Arguments that differ in the order of breakpoints and in how often they are given have the same
   answer.
4. A listing is printed for every program, whatever its size is.
5. Nothing is printed of a file that cannot be read.
6. Arguments are answered exactly if they can be told apart and read, and the answer is the one to
   the run or listing that they are read as.
7. Every run and every listing has arguments that are answered as this run or listing. -/
theorem answers_are_exact :
    (∀ (path : String) (program : Array UInt8) (settings : Settings) (breakpoints : List Word)
      (entropy : RandomSource),
      let s := session program settings breakpoints entropy
      let answer := (Command.run path settings breakpoints).respond (.ok program) entropy
      (answer.exitCode = 0 ↔ program.size ≤ 3584 ∧ ∃ report, s.run.verdict = .ok report) ∧
      (∀ report, program.size ≤ 3584 → s.run.verdict = .ok report →
        answer = .success (transcript report s.run.session.machine) ∧
          Shows answer.output report s.run.session.machine) ∧
      (answer.exitCode ≠ 0 → answer.exitCode = 1 ∧ answer.output = []) ∧
      (∀ breakpoints', (∀ a, a ∈ breakpoints' ↔ a ∈ breakpoints) →
        (Command.run path settings breakpoints').respond (.ok program) entropy = answer) ∧
      ∀ entropy', settings.seed? ≠ none ∨ DrawsNothing s →
        (Command.run path settings breakpoints).respond (.ok program) entropy' = answer) ∧
    (∀ (report report' : Report) (m n : Machine),
      printed (transcript report m) = printed (transcript report' n) →
        report = report' ∧ m.ShownAlike n) ∧
    (∀ (args args' : List String) (as bs : List Argument),
      Argument.scan ["--max-steps", "--seed", "--break"] args = some as →
      Argument.scan ["--max-steps", "--seed", "--break"] args' = some bs →
      Argument.SameRequest as bs → ∀ name ∈ ["run", "r"], ∀ files entropy,
        answer? files entropy (name :: args) = answer? files entropy (name :: args')) ∧
    (∀ (path : String) (program : Array UInt8) (entropy : RandomSource),
      (Command.disassemble path).respond (.ok program) entropy
        = .success (Disassembly.ofProgram program).lines) ∧
    (∀ (c : Command) (cause : String) (entropy : RandomSource),
      let answer := c.respond (.error cause) entropy
      answer.exitCode = 1 ∧ answer.output = []) ∧
    (∀ (args : List String) (files : String → Except String (Array UInt8))
      (entropy : RandomSource) (response : Response),
      (∀ name ∈ ["run", "r"], answer? files entropy (name :: args) = some response ↔
        ∃ as path maxSteps? seed? breakpoints,
          Argument.scan ["--max-steps", "--seed", "--break"] args = some as ∧
            Argument.AsksForRun as path maxSteps? seed? breakpoints ∧
            response = (Command.run path
              { maxSteps := maxSteps?.getD 1000000, seed? := seed?.map UInt64.ofNat }
              (breakpoints.map UInt16.ofNat)).respond (files path) entropy) ∧
      ∀ name ∈ ["disasm", "d"], answer? files entropy (name :: args) = some response ↔
        ∃ as path, Argument.scan [] args = some as ∧ Argument.onlyPath? as = some path ∧
          response = (Command.disassemble path).respond (files path) entropy) ∧
    ∀ c : Command, c.Writable → ∀ files entropy,
      answer? files entropy c.arguments = some (c.respond (files c.path) entropy) := by
  refine ⟨?_, fun _ _ _ _ => transcript_inj, ?_, fun _ _ _ => rfl, fun _ _ _ => ⟨rfl, rfl⟩,
    fun _ _ _ _ => ⟨fun _ => answer?_run_iff, fun _ => answer?_disassemble_iff⟩, ?_⟩
  · intro path program settings breakpoints entropy s answer
    refine ⟨⟨fun hzero => ?_, ?_⟩, ?_, fun hfailed => ?_, fun _ h => respondRun_congr h,
      fun _ h => respondRun_entropy h⟩
    · apply Classical.byContradiction
      intro hnot
      have hone : answer.exitCode = 1 := (respondRun_of_not_ok hnot).1
      rw [hzero] at hone
      cases hone
    · rintro ⟨hfits, report, hverdict⟩
      exact congrArg Response.exitCode (respondRun_of_ok hfits hverdict)
    · intro report hfits hverdict
      have hanswer : answer = .success (transcript report s.run.session.machine) :=
        respondRun_of_ok hfits hverdict
      rw [hanswer]
      exact ⟨rfl, shows_transcript report s.run.session.machine⟩
    · apply respondRun_of_not_ok
      rintro ⟨hfits, report, hverdict⟩
      exact hfailed (congrArg Response.exitCode (respondRun_of_ok hfits hverdict))
  · intro args args' as bs has hbs h name hname files entropy
    exact Option.ext fun response => ⟨answer?_of_sameRequest has hbs h hname,
      answer?_of_sameRequest hbs has h.symm hname⟩
  · intro c hc files entropy
    exact answer?_eq_some_iff.mpr ⟨c, parse?_arguments hc, rfl⟩

/-- A machine in front of a jump to its own place. -/
def atSelfJump (random : RandomSource) : Machine := .fresh (.image #[0x12, 0x00]) random

theorem step_atSelfJump (random : RandomSource) :
    (atSelfJump random).step.verdict = .ok .halted ∧
      (atSelfJump random).step.machine = { atSelfJump random with halted := true } ∧
      (atSelfJump random).instruction? = some { operation := .jump, immediate := 0x200 } := by
  have hword : (atSelfJump random).memory.word (atSelfJump random).pc.toNat
      = .ok (.ofBytes 0x12 0x00) :=
    Memory.word_image (i := 0) (by decide) (by decide)
  have hdecode : Instruction.decode (.ofBytes 0x12 0x00)
      = some { operation := .jump, immediate := 0x200 } := by decide
  refine ⟨?_, ?_, ?_⟩
  · rw [Machine.step_of_decode rfl hword hdecode]
    rfl
  · rw [Machine.step_of_decode rfl hword hdecode]
    rfl
  · rw [Machine.instruction?, hword]
    exact hdecode

/-- Two breakpoints elsewhere. -/
def farBreakpoints : List Word := [0x300, 0x204]

/-- The run of such a machine. -/
theorem course_selfJump (random : RandomSource) :
    Session.Course (session #[0x12, 0x00] {} farBreakpoints random) 1000000
      [(atSelfJump random).step] (.ok .halted)
      (session #[0x12, 0x00] {} farBreakpoints random).goOn := by
  have hpass : (session #[0x12, 0x00] {} farBreakpoints random).mustStop = false := by
    have hmem : (0x200 : Word) ∉ Std.ExtTreeSet.ofList farBreakpoints := by
      rw [Std.ExtTreeSet.mem_ofList]
      decide
    refine Bool.eq_false_iff.mpr fun hstop => hmem ?_
    exact (Session.mustStop_eq_true_iff.mp hstop).1
  exact .selfJump rfl hpass (step_atSelfJump random).1

theorem run_of_selfJump {s t : Session} {step : Step} (hstep : step.verdict = .ok .halted)
    (h : s.Course s.settings.maxSteps [step] (.ok .halted) t) :
    s.run.verdict = .ok ⟨.halted, 1⟩ ∧ s.run.session = t := by
  obtain ⟨hverdict, hsession, -⟩ := h.run_eq
  refine ⟨?_, hsession⟩
  rw [hverdict]
  simp [Except.map, Step.succeeds, hstep]

theorem run_selfJump (random : RandomSource) :
    (session #[0x12, 0x00] {} farBreakpoints random).run.verdict = .ok ⟨.halted, 1⟩ ∧
      (session #[0x12, 0x00] {} farBreakpoints random).run.session.machine
        = { atSelfJump random with halted := true } := by
  obtain ⟨hverdict, hsession⟩ :=
    run_of_selfJump (step_atSelfJump random).1 (course_selfJump random)
  refine ⟨hverdict, ?_⟩
  rw [hsession, Session.machine_goOn]
  exact (step_atSelfJump random).2.1

theorem drawsNothing_selfJump (random : RandomSource) :
    DrawsNothing (session #[0x12, 0x00] {} farBreakpoints random) := by
  intro j hj i hi
  rw [(course_selfJump random).calls_run_eq] at hj
  -- The run consists of one step, which performs the jump.
  obtain rfl : j = 0 := Nat.lt_one_iff.mp hj
  have hperformed : (atSelfJump random).performed? = some i := hi
  rw [Machine.performed?_of_ok rfl (step_atSelfJump random).1, (step_atSelfJump random).2.2]
    at hperformed
  obtain rfl := Option.some.inj hperformed
  exact nofun

/-- What is printed of a machine that has halted at once. -/
def selfJumpLines : List String :=
  [ "halted after 1 instructions",
    "PC=0200 I=0000 DT=00 ST=00",
    "V0=00 V1=00 V2=00 V3=00 V4=00 V5=00 V6=00 V7=00 "
      ++ "V8=00 V9=00 VA=00 VB=00 VC=00 VD=00 VE=00 VF=00",
    "stack: []" ] ++ List.replicate 32 (String.ofList (List.replicate 64 '.'))

theorem transcript_selfJump (random : RandomSource) :
    transcript ⟨.halted, 1⟩ { atSelfJump random with halted := true } = selfJumpLines := by
  let m : Machine := { atSelfJump random with halted := true }
  have hstatus : m.statusLine = "PC=0200 I=0000 DT=00 ST=00" := by
    change "PC=" ++ Hex.padded 4 0x200 ++ " I=" ++ Hex.padded 4 0 ++ " DT=" ++ Hex.padded 2 0
      ++ " ST=" ++ Hex.padded 2 0 = _
    decide +kernel
  have hregister (r : Nibble) : m.registerText r
      = Instruction.registerName r ++ "=" ++ Hex.padded 2 (0 : UInt8).toNat := by
    rw [Machine.registerText, show m.register r = 0 from Vector.getElem_replicate r.isLt]
  have hstack : m.stackLine = "stack: []" := by
    change "stack: [" ++ ", ".intercalate [] ++ "]" = _
    decide
  have hrow (y : Nat) : m.pictureRow y = String.ofList (List.replicate 64 '.') := by
    have hdark (x : Nat) : m.screen.pixel x y = false := Screen.pixel_blank x y
    simp only [Machine.pictureRow, hdark]
    decide
  change transcript ⟨.halted, 1⟩ m = selfJumpLines
  rw [transcript_eq, hstatus, Machine.registerLine, funext hregister, hstack, funext hrow]
  decide +kernel

/-- Breakpoints on the command line, given in two ways. -/
def plainArguments : List String := ["rom.ch8", "--break", "0x300", "--break=0x204"]

def wildArguments : List String :=
  ["--break=0x204", "--break=0x300", "rom.ch8", "--break", "0x204"]

theorem scan_plainArguments :
    Argument.scan ["--max-steps", "--seed", "--break"] plainArguments = some
      [.path "rom.ch8", .setting "--break" "0x300", .setting "--break" "0x204"] := by
  decide

theorem asksForRun_plainArguments :
    Argument.AsksForRun
      [.path "rom.ch8", .setting "--break" "0x300", .setting "--break" "0x204"]
      "rom.ch8" none none [0x300, 0x204] where
  path := by decide
  maxSteps := by decide
  seed := by decide
  breakpoints := by decide

theorem scan_wildArguments :
    Argument.scan ["--max-steps", "--seed", "--break"] wildArguments = some
      [.setting "--break" "0x204", .setting "--break" "0x300", .path "rom.ch8",
        .setting "--break" "0x204"] := by
  decide

theorem sameRequest_wildArguments :
    Argument.SameRequest
      [.path "rom.ch8", .setting "--break" "0x300", .setting "--break" "0x204"]
      [.setting "--break" "0x204", .setting "--break" "0x300", .path "rom.ch8",
        .setting "--break" "0x204"] where
  paths := by decide
  maxSteps := by decide
  seed := by decide
  breakpoints text := by
    change text ∈ ["0x300", "0x204"] ↔ text ∈ ["0x204", "0x300", "0x204"]
    simp [or_comm]

/-- Arguments with their answers. A program that halts is run to its end, with any randomness and
with the breakpoints in any order, and also if it is asked for in the plainest way. A program that
is too large is not run at all. Listings are printed, too. -/
theorem answers_are_exact_selfJump :
    let files := fun _ => .ok #[0x12, 0x00]
    let tooLarge := fun _ => .ok (Array.replicate 3585 0)
    let halted : Response := { exitCode := 0, output := selfJumpLines }
    answer? files (.ofSeed 0) ("run" :: plainArguments) = some halted ∧
      answer? files (.ofSeed 1) ("run" :: plainArguments) = some halted ∧
      answer? files (.ofSeed 0) ("run" :: wildArguments) = some halted ∧
      answer? files (.ofSeed 0) (Command.run "rom.ch8" {} farBreakpoints).arguments = some halted ∧
      (∃ errors, answer? tooLarge (.ofSeed 0) ("run" :: plainArguments)
        = some { exitCode := 1, errors := errors }) ∧
      answer? files (.ofSeed 0) ["disasm", "rom.ch8"]
        = some { exitCode := 0, output := ["off_0200:", "\tJMP off_0200"] } := by
  intro files tooLarge halted
  obtain ⟨hruns, -, hsame, -, -, hunderstood, hwritten⟩ := answers_are_exact
  have hplain (files : String → Except String (Array UInt8)) (entropy : RandomSource) :
      answer? files entropy ("run" :: plainArguments)
        = some ((Command.run "rom.ch8" {} farBreakpoints).respond (files "rom.ch8") entropy) :=
    ((hunderstood plainArguments files entropy _).1 "run" (by decide)).mpr
      ⟨_, _, _, _, _, scan_plainArguments, asksForRun_plainArguments, rfl⟩
  obtain ⟨-, hanswer, -, -, hrandom⟩ :=
    hruns "rom.ch8" #[0x12, 0x00] {} farBreakpoints (.ofSeed 0)
  have hhalted : (Command.run "rom.ch8" {} farBreakpoints).respond (.ok #[0x12, 0x00]) (.ofSeed 0)
      = halted := by
    obtain ⟨hverdict, hmachine⟩ := run_selfJump (.ofSeed 0)
    rw [(hanswer _ (by decide) hverdict).1, hmachine, transcript_selfJump]
    rfl
  have hfirst : answer? files (.ofSeed 0) ("run" :: plainArguments) = some halted :=
    (hplain files _).trans (congrArg some hhalted)
  refine ⟨hfirst, ?_, ?_, ?_, ?_, ?_⟩
  · have hother := hrandom (.ofSeed 1) (.inr (drawsNothing_selfJump (.ofSeed 0)))
    exact (hplain files _).trans (congrArg some (hother.trans hhalted))
  · exact (hsame _ _ _ _ scan_plainArguments scan_wildArguments sameRequest_wildArguments "run"
      (by decide) files _).symm.trans hfirst
  · have hwritable : (Command.run "rom.ch8" {} farBreakpoints).Writable :=
      ⟨by decide, show 1000000 < 0x10000000000000000 by decide⟩
    exact (hwritten _ hwritable files _).trans (congrArg some hhalted)
  · obtain ⟨hzero, -, hone, -⟩ :=
      hruns "rom.ch8" (Array.replicate 3585 0) {} farBreakpoints (.ofSeed 0)
    obtain ⟨hcode, houtput⟩ := hone fun h => by
      have hsize := (hzero.mp h).1
      rw [Array.size_replicate] at hsize
      exact absurd hsize (by decide)
    have hresponse {r : Response} (hcode : r.exitCode = 1) (houtput : r.output = []) :
        some r = some { exitCode := 1, errors := r.errors } := by
      rw [← hcode, ← houtput]
    exact ⟨_, (hplain tooLarge _).trans (hresponse hcode houtput)⟩
  · exact ((hunderstood ["rom.ch8"] files (.ofSeed 0) _).2 "disasm" (by decide)).mpr
      ⟨[.path "rom.ch8"], "rom.ch8", by decide, by decide, by decide⟩

end Command

end ChipEight
