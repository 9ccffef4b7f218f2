import ChipEight.CommandLine
import ChipEight.Proofs.Numeral

/-!
# What arguments ask for

A command is read off a list of arguments in three stages. The first argument names it, the others
are told apart into paths and settings, and what is given to each setting is read by itself. This
module says which lists are understood, and as what.

It also says that there is nothing that cannot be asked for. Numbers are read back from their text,
and so every command has arguments that are understood as this command.

## Main definitions

- `Argument.AsksForRun`: arguments that are read as a run
- `Argument.SameRequest`: arguments that differ at most in how breakpoints are given
- `Command.arguments`: arguments that ask for a command
- `Command.Writable`: commands that can be asked for

## Main statements

- `Command.parseRun?_eq_some_iff`, `Command.parseDisassemble?_eq_some_iff`: what is understood
- `Command.parse?_arguments`: arguments that ask for a command are understood as this command
-/

namespace ChipEight

/-! ## Arguments told apart -/

namespace Argument

theorem isPlain_of_not_mem {text : String} (h : '-' ∉ text.toList) : isPlain text = true := by
  unfold isPlain
  split
  · next htext => exact absurd (htext ▸ List.mem_cons_self) h
  · rfl

/-- A setting with several values, each of which is the argument behind it. -/
def given (name : String) (texts : List String) : List String :=
  texts.flatMap fun text => [name, text]

theorem scan_setting {name text : String} (hname : name ∈ ["--max-steps", "--seed", "--break"])
    (htext : isPlain text = true) (rest : List String) :
    scan ["--max-steps", "--seed", "--break"] (name :: text :: rest)
      = (scan ["--max-steps", "--seed", "--break"] rest).map (.setting name text :: ·) := by
  -- For each of the three names all that is asked of it is decided; the value is left.
  simp only [List.mem_cons, List.not_mem_nil, or_false] at hname
  rcases hname with rfl | rfl | rfl
  · exact if_pos htext
  · exact if_pos htext
  · exact if_pos htext

theorem scan_given {name : String} (hname : name ∈ ["--max-steps", "--seed", "--break"])
    {texts : List String} (htexts : ∀ text ∈ texts, isPlain text = true) (rest : List String) :
    scan ["--max-steps", "--seed", "--break"] (given name texts ++ rest)
      = (scan ["--max-steps", "--seed", "--break"] rest).map (texts.map (.setting name) ++ ·) := by
  induction texts with
  | nil => simp [given]
  | cons text texts ih =>
    obtain ⟨htext, htexts⟩ := List.forall_mem_cons.mp htexts
    change scan _ (name :: text :: (given name texts ++ rest)) = _
    rw [scan_setting hname htext, ih htexts, Option.map_map]
    rfl

theorem paths_append (as bs : List Argument) : paths (as ++ bs) = paths as ++ paths bs :=
  List.filterMap_append ..

theorem values_append (as bs : List Argument) (wanted : String) :
    values (as ++ bs) wanted = values as wanted ++ values bs wanted :=
  List.filterMap_append ..

theorem paths_settings (name : String) (texts : List String) :
    paths (texts.map (.setting name)) = [] := by
  simp [paths]

theorem values_settings (name : String) (texts : List String) (wanted : String) :
    values (texts.map (.setting name)) wanted = if name = wanted then texts else [] := by
  induction texts with
  | nil => simp [values]
  | cons text texts ih =>
    rw [List.map_cons, ← List.singleton_append, values_append, ih]
    by_cases h : name = wanted <;> simp [values, h]

/-- The path behind settings for a run, and what is given to them. -/
def told (path : String) (maxSteps seed breaks : List String) : List Argument :=
  maxSteps.map (.setting "--max-steps")
    ++ (seed.map (.setting "--seed") ++ (breaks.map (.setting "--break") ++ [.path path]))

/-- The same as it is written. -/
def written (path : String) (maxSteps seed breaks : List String) : List String :=
  given "--max-steps" maxSteps
    ++ (given "--seed" seed ++ (given "--break" breaks ++ ["--", path]))

section Told

variable {path : String} {maxSteps seed breaks : List String}

theorem scan_written (hmaxSteps : ∀ text ∈ maxSteps, isPlain text = true)
    (hseed : ∀ text ∈ seed, isPlain text = true) (hbreaks : ∀ text ∈ breaks, isPlain text = true) :
    scan ["--max-steps", "--seed", "--break"] (written path maxSteps seed breaks)
      = some (told path maxSteps seed breaks) := by
  rw [written, scan_given (by decide) hmaxSteps, scan_given (by decide) hseed,
    scan_given (by decide) hbreaks]
  rfl

theorem onlyPath?_told (hpath : path ≠ "") :
    onlyPath? (told path maxSteps seed breaks) = some path := by
  have hpaths : paths (told path maxSteps seed breaks) = [path] := by
    rw [told, paths_append, paths_append, paths_append, paths_settings, paths_settings,
      paths_settings]
    rfl
  rw [onlyPath?, hpaths]
  exact if_neg fun hempty => hpath (String.isEmpty_iff.mp hempty)

/-- Each setting has what was given to it. -/
theorem values_told (path : String) (maxSteps seed breaks : List String) :
    values (told path maxSteps seed breaks) "--max-steps" = maxSteps ∧
      values (told path maxSteps seed breaks) "--seed" = seed ∧
      values (told path maxSteps seed breaks) "--break" = breaks := by
  have hpath (wanted : String) : values [.path path] wanted = [] := rfl
  simp only [told, values_append, values_settings, hpath]
  simp

end Told

/-- Arguments after `run`, told apart, that ask for a run of the program at a path, with a budget
and a seed if these are given, and with breakpoints. -/
structure AsksForRun (as : List Argument) (path : String) (maxSteps? seed? : Option Nat)
    (breakpoints : List Nat) : Prop where
  path : onlyPath? as = some path
  maxSteps : optional? as "--max-steps" (Numeral.decimalOrHex? UInt64.size) = some maxSteps?
  seed : optional? as "--seed" (Numeral.decimal? UInt64.size) = some seed?
  breakpoints : (values as "--break").mapM (Numeral.decimalOrHex? UInt16.size) = some breakpoints

/-- Two lists of arguments differ at most in the order of breakpoints and in how often they are
given. -/
structure SameRequest (as bs : List Argument) : Prop where
  paths : paths as = paths bs
  maxSteps : values as "--max-steps" = values bs "--max-steps"
  seed : values as "--seed" = values bs "--seed"
  breakpoints : ∀ text, text ∈ values as "--break" ↔ text ∈ values bs "--break"

theorem SameRequest.symm {as bs : List Argument} (h : SameRequest as bs) : SameRequest bs as :=
  ⟨h.paths.symm, h.maxSteps.symm, h.seed.symm, fun text => (h.breakpoints text).symm⟩

section Reading

variable {α β : Type} {read : α → Option β} {texts texts' : List α} {list : List β}

/-- Several texts are read if each of them is. -/
theorem exists_mapM_iff :
    (∃ list, texts.mapM read = some list) ↔ ∀ text ∈ texts, ∃ b, read text = some b := by
  induction texts with
  | nil => simp
  | cons text texts ih =>
    rw [List.forall_mem_cons, ← ih, List.mapM_cons]
    cases read text <;> cases texts.mapM read <;> simp

theorem mem_of_mapM (h : texts.mapM read = some list) (b : β) :
    b ∈ list ↔ ∃ text ∈ texts, read text = some b := by
  induction texts generalizing list with
  | nil =>
    obtain rfl : [] = list := Option.some.inj h
    simp
  | cons text texts ih =>
    rw [List.mapM_cons, Option.bind_eq_bind, Option.bind_eq_some_iff] at h
    obtain ⟨first, hfirst, h⟩ := h
    rw [Option.bind_eq_bind, Option.bind_eq_some_iff] at h
    obtain ⟨rest, hrest, h⟩ := h
    obtain rfl : first :: rest = list := Option.some.inj h
    simp [ih hrest, hfirst, eq_comm]

/-- If texts are read, so are texts that are the same but for their order and repetition. What is
read is the same but for order and repetition, too. -/
theorem mapM_congr (h : ∀ text, text ∈ texts ↔ text ∈ texts')
    (hread : texts.mapM read = some list) :
    ∃ list', texts'.mapM read = some list' ∧ ∀ b, b ∈ list' ↔ b ∈ list := by
  obtain ⟨list', hread'⟩ : ∃ list', texts'.mapM read = some list' := by
    rw [exists_mapM_iff]
    simp only [← h]
    exact exists_mapM_iff.mp ⟨list, hread⟩
  refine ⟨list', hread', fun b => ?_⟩
  simp only [mem_of_mapM hread, mem_of_mapM hread', h]

end Reading

/-- In which order breakpoints are given, and how often, matters to nothing that is read but the
breakpoints, and not to them as a set. -/
theorem AsksForRun.congr {as bs : List Argument} {path : String} {maxSteps? seed? : Option Nat}
    {breakpoints : List Nat} (hasks : AsksForRun as path maxSteps? seed? breakpoints)
    (h : SameRequest as bs) :
    ∃ breakpoints', AsksForRun bs path maxSteps? seed? breakpoints' ∧
      ∀ b, b ∈ breakpoints' ↔ b ∈ breakpoints := by
  obtain ⟨hpath, hmaxSteps, hseed, hbreaks⟩ := hasks
  rw [onlyPath?, h.paths] at hpath
  rw [optional?, h.maxSteps] at hmaxSteps
  rw [optional?, h.seed] at hseed
  obtain ⟨breakpoints', hbreaks', hmem⟩ := mapM_congr h.breakpoints hbreaks
  exact ⟨breakpoints', ⟨hpath, hmaxSteps, hseed, hbreaks'⟩, hmem⟩

end Argument

/-! ## Commands -/

namespace Command

theorem parse?_run {name : String} (hname : name ∈ ["run", "r"]) (args : List String) :
    parse? (name :: args) = parseRun? args := by
  rcases List.mem_cons.mp hname with rfl | hname
  · rfl
  · obtain rfl := List.mem_singleton.mp hname
    rfl

theorem parse?_disassemble {name : String} (hname : name ∈ ["disasm", "d"]) (args : List String) :
    parse? (name :: args) = parseDisassemble? args := by
  rcases List.mem_cons.mp hname with rfl | hname
  · rfl
  · obtain rfl := List.mem_singleton.mp hname
    rfl

/-- What is understood after `run`. -/
theorem parseRun?_eq_some_iff {args : List String} {c : Command} :
    parseRun? args = some c ↔
      ∃ as path maxSteps? seed? breakpoints,
        Argument.scan ["--max-steps", "--seed", "--break"] args = some as ∧
          Argument.AsksForRun as path maxSteps? seed? breakpoints ∧
          c = .run path { maxSteps := maxSteps?.getD 1000000, seed? := seed?.map UInt64.ofNat }
            (breakpoints.map UInt16.ofNat) := by
  constructor
  · intro h
    simp only [parseRun?, Option.bind_eq_bind, Option.bind_eq_some_iff] at h
    obtain ⟨as, hscan, path, hpath, maxSteps?, hmaxSteps, seed?, hseed, breakpoints, hbreaks, hc⟩ :=
      h
    exact ⟨as, path, maxSteps?, seed?, breakpoints, hscan, ⟨hpath, hmaxSteps, hseed, hbreaks⟩,
      (Option.some.inj hc).symm⟩
  · rintro ⟨as, path, maxSteps?, seed?, breakpoints, hscan, hasks, rfl⟩
    simp only [parseRun?, hscan, hasks.path, hasks.maxSteps, hasks.seed, hasks.breakpoints,
      Option.bind_eq_bind, Option.bind_some]
    rfl

/-- What is understood after `disasm`. -/
theorem parseDisassemble?_eq_some_iff {args : List String} {c : Command} :
    parseDisassemble? args = some c ↔
      ∃ as path, Argument.scan [] args = some as ∧ Argument.onlyPath? as = some path ∧
        c = .disassemble path := by
  simp only [parseDisassemble?, Option.bind_eq_bind, Option.bind_eq_some_iff]
  constructor
  · rintro ⟨as, hscan, path, hpath, hc⟩
    exact ⟨as, path, hscan, hpath, (Option.some.inj hc).symm⟩
  · rintro ⟨as, path, hscan, hpath, rfl⟩
    exact ⟨as, hscan, path, hpath, rfl⟩

def seedTexts (seed? : Option UInt64) : List String :=
  seed?.toList.map fun seed => toString seed.toNat

def addressText (a : Word) : String := "0x" ++ Hex.padded 4 a.toNat

/-- Arguments that ask for a command. Numbers are written in base ten, and addresses in base
sixteen. -/
def arguments : Command → List String
  | .run path settings breakpoints =>
    "run" :: Argument.written path [toString settings.maxSteps] (seedTexts settings.seed?)
      (breakpoints.map addressText)
  | .disassemble path => ["disasm", "--", path]

/-- A command that can be asked for: the path is not empty, and the budget has no more than
sixty-four bits. -/
def Writable : Command → Prop
  | .run path settings _ => path ≠ "" ∧ settings.maxSteps < UInt64.size
  | .disassemble path => path ≠ ""

theorem isPlain_toString (n : Nat) : Argument.isPlain (toString n) = true :=
  Argument.isPlain_of_not_mem fun hdash =>
    absurd (Numeral.isDigit_of_mem_toString _ hdash) (by decide)

theorem isPlain_addressText (a : Word) : Argument.isPlain (addressText a) = true := by
  apply Argument.isPlain_of_not_mem
  rw [addressText, String.toList_append, List.mem_append, not_or]
  refine ⟨by decide, fun hdash => ?_⟩
  exact Hex.forall_mem_padded (P := (· ≠ '-')) (by decide) 4 a.toNat _ hdash rfl

/-- What is written for a run is read as this run. -/
theorem asksForRun_told {path : String} (hpath : path ≠ "") {maxSteps : Nat}
    (hbudget : maxSteps < UInt64.size) (seed? : Option UInt64) (breakpoints : List Word) :
    Argument.AsksForRun
      (Argument.told path [toString maxSteps] (seedTexts seed?) (breakpoints.map addressText))
      path (some maxSteps) (seed?.map UInt64.toNat) (breakpoints.map UInt16.toNat) := by
  obtain ⟨hmaxSteps, hseed, hbreaks⟩ :=
    Argument.values_told path [toString maxSteps] (seedTexts seed?) (breakpoints.map addressText)
  refine ⟨Argument.onlyPath?_told hpath, ?_, ?_, ?_⟩
  · rw [Argument.optional?, hmaxSteps]
    exact congrArg (Option.map some) (Numeral.decimalOrHex?_toString hbudget)
  · rw [Argument.optional?, hseed]
    cases seed? with
    | none => rfl
    | some seed => exact congrArg (Option.map some) (Numeral.decimal?_toString seed.toNat_lt)
  · have hread : Numeral.decimalOrHex? UInt16.size ∘ addressText = fun a => pure a.toNat :=
      funext fun a => Numeral.decimalOrHex?_padded 4 a.toNat_lt
    rw [hbreaks, List.mapM_map, hread]
    exact List.mapM_pure

/-- Every command can be asked for. -/
theorem parse?_arguments {c : Command} (h : c.Writable) : parse? c.arguments = some c := by
  cases c with
  | disassemble path =>
    have hpath : Argument.onlyPath? [.path path] = some path :=
      if_neg fun hempty => h (String.isEmpty_iff.mp hempty)
    exact parseDisassemble?_eq_some_iff.mpr ⟨[.path path], path, rfl, hpath, rfl⟩
  | run path settings breakpoints =>
    obtain ⟨hpath, hbudget⟩ := h
    have hscan : Argument.scan ["--max-steps", "--seed", "--break"]
        (Argument.written path [toString settings.maxSteps] (seedTexts settings.seed?)
          (breakpoints.map addressText)) = some (Argument.told path _ _ _) :=
      Argument.scan_written (List.forall_mem_singleton.mpr (isPlain_toString _))
        (List.forall_mem_map.mpr fun seed _ => isPlain_toString seed.toNat)
        (List.forall_mem_map.mpr fun a _ => isPlain_addressText a)
    refine parseRun?_eq_some_iff.mpr
      ⟨_, _, _, _, _, hscan, asksForRun_told hpath hbudget settings.seed? breakpoints, ?_⟩
    simp [Function.comp_def]

end Command

end ChipEight
