import Std.Data.String.ToNat
import ChipEight.CommandLine.Response
import ChipEight.Proofs.Listing.Assembly

/-!
# What is printed after a run

After a run its report and the machine are printed in thirty-six lines. This module says which lines
these are, and that nothing is lost in them: from the text alone one can tell how the run ended and
after how many instructions, and all of the machine that is shown. No two numbers look the same, no
two lists of return addresses do, and where one item ends the next one cannot be mistaken for a part
of it.

All but the picture is made of tokens, which have no blanks, commas or line ends in them. Tokens are
told apart by what stands between them, first the lines, then the tokens of a line, then the digits
behind the name of a register.

## Main definitions

- `transcript`: the lines that are printed after a run
- `Shows`: what these lines are
- `Machine.ShownAlike`: machines that agree in all that is shown
- `printed`: lines as one text

## Main statements

- `shows_transcript`: the transcript shows the report and the machine
- `transcript_inj`: the text of a transcript determines what it shows
-/

namespace ChipEight

/-! ## Texts with separators -/

section Separators

variable {c : Char} {rest l k : List Char} {ls ks : List (List Char)}

/-- A text before the first separator is as long as on the other side. -/
theorem append_cons_inj {x y : List Char} (hl : c ∉ l) (hk : c ∉ k)
    (h : l ++ c :: x = k ++ c :: y) : l = k ∧ x = y := by
  have hsplit := congrArg (List.splitOn c) h
  rw [List.splitOn_append_cons_self_of_not_mem hl, List.splitOn_append_cons_self_of_not_mem hk]
    at hsplit
  obtain ⟨rfl, -⟩ := List.cons.inj hsplit
  exact ⟨rfl, (List.cons.inj (List.append_cancel_left h)).2⟩

theorem intercalate_cons : (c :: rest).intercalate (l :: ls)
    = l ++ ls.flatMap ((c :: rest) ++ ·) := by
  induction ls generalizing l with
  | nil => simp
  | cons k ls ih => rw [List.intercalate_cons_cons, ih, List.flatMap_cons, List.append_assoc]; simp

/-- The first part ends where the first separator starts, and so on. -/
theorem separated_inj (hls : ∀ p ∈ l :: ls, c ∉ p) (hks : ∀ p ∈ k :: ks, c ∉ p)
    (h : l ++ ls.flatMap ((c :: rest) ++ ·) = k ++ ks.flatMap ((c :: rest) ++ ·)) :
    l :: ls = k :: ks := by
  -- If there are more parts on one side, its first separator is inside a part of the other side.
  induction ls generalizing l k ks with
  | nil =>
    cases ks with
    | nil => simpa using h
    | cons k' ks =>
      refine absurd ?_ (hls l List.mem_cons_self)
      rw [List.flatMap_nil, List.append_nil] at h
      rw [h]
      simp
  | cons l' ls ih =>
    cases ks with
    | nil =>
      refine absurd ?_ (hks k List.mem_cons_self)
      rw [List.flatMap_nil, List.append_nil] at h
      rw [← h]
      simp
    | cons k' ks =>
      obtain ⟨hl, hls'⟩ := List.forall_mem_cons.mp hls
      obtain ⟨hk, hks'⟩ := List.forall_mem_cons.mp hks
      simp only [List.flatMap_cons, List.cons_append, List.append_assoc] at h
      obtain ⟨rfl, hrest⟩ := append_cons_inj hl hk h
      have htail : l' :: ls = k' :: ks := ih hls' hks' (List.append_cancel_left hrest)
      rw [htail]

/-- What is put together with separators can be taken apart again, if no part is empty or has the
first character of the separator in it. -/
theorem intercalate_inj (hls : ∀ p ∈ ls, p ≠ [] ∧ c ∉ p) (hks : ∀ p ∈ ks, p ≠ [] ∧ c ∉ p)
    (h : (c :: rest).intercalate ls = (c :: rest).intercalate ks) : ls = ks := by
  -- No parts make an empty text, and so would one empty part.
  cases ls with
  | nil =>
    cases ks with
    | nil => rfl
    | cons k ks =>
      rw [List.intercalate_nil, intercalate_cons] at h
      exact absurd (List.append_eq_nil_iff.mp h.symm).1 (hks k List.mem_cons_self).1
  | cons l ls =>
    cases ks with
    | nil =>
      rw [List.intercalate_nil, intercalate_cons] at h
      exact absurd (List.append_eq_nil_iff.mp h).1 (hls l List.mem_cons_self).1
    | cons k ks =>
      rw [intercalate_cons, intercalate_cons] at h
      exact separated_inj (fun p hp => (hls p hp).2) (fun p hp => (hks p hp).2) h

end Separators

/-! ## Tokens -/

/-- A text that is not empty and has no blanks, commas or line ends in it. -/
def IsToken (text : String) : Prop :=
  text ≠ "" ∧ ∀ c ∈ text.toList, c ≠ ' ' ∧ c ≠ ',' ∧ c ≠ '\n'

instance (text : String) : Decidable (IsToken text) :=
  @instDecidableAnd _ _ inferInstance (List.decidableBAll _ text.toList)

theorem IsToken.append {s t : String} (hs : IsToken s) (ht : IsToken t) : IsToken (s ++ t) := by
  refine ⟨fun h => hs.1 (String.append_eq_empty_iff.mp h).1, fun c hc => ?_⟩
  rw [String.toList_append] at hc
  exact (List.mem_append.mp hc).elim (hs.2 c) (ht.2 c)

theorem isToken_padded (width n : Nat) : IsToken (Hex.padded width n) :=
  ⟨Hex.padded_ne_empty width n, Hex.forall_mem_padded (by decide) width n⟩

theorem isToken_toString (n : Nat) : IsToken (toString n) := by
  refine ⟨Nat.repr_ne_empty, fun c hc => ?_⟩
  have hdigit : c.isDigit = true := Numeral.isDigit_of_mem_toString c hc
  refine ⟨?_, ?_, ?_⟩ <;> rintro rfl <;> exact absurd hdigit (by decide)

/-- Tokens are told apart in a text that has a blank or a comma between them. -/
theorem tokens_inj {separator : String} {c : Char} {rest : List Char}
    (hseparator : separator.toList = c :: rest) (hc : c = ' ' ∨ c = ',') {ws vs : List String}
    (hws : ∀ w ∈ ws, IsToken w) (hvs : ∀ v ∈ vs, IsToken v)
    (h : separator.intercalate ws = separator.intercalate vs) : ws = vs := by
  have hparts {ws : List String} (hws : ∀ w ∈ ws, IsToken w) :
      ∀ p ∈ ws.map String.toList, p ≠ [] ∧ c ∉ p := by
    intro p hp
    obtain ⟨w, hw, rfl⟩ := List.mem_map.mp hp
    obtain ⟨hne, hplain⟩ := hws w hw
    refine ⟨fun h => hne (String.toList_eq_nil_iff.mp h), fun hmem => ?_⟩
    obtain ⟨hblank, hcomma, -⟩ := hplain c hmem
    exact hc.elim hblank hcomma
  have htext := congrArg String.toList h
  rw [String.toList_intercalate, String.toList_intercalate, hseparator] at htext
  exact (List.map_inj_right fun _ _ => String.toList_inj.mp).mp
    (intercalate_inj (hparts hws) (hparts hvs) htext)

/-! ## Numbers -/

theorem Hex.padded_inj {width n n' : Nat} (h : padded width n = padded width n') : n = n' := by
  have hread := natural?_padded width n
  rw [h, natural?_padded] at hread
  exact (Option.some.inj hread).symm

/-- A byte is shown behind its name. -/
theorem byte_inj {name : String} {width : Nat} {a b : UInt8}
    (h : name ++ Hex.padded width a.toNat = name ++ Hex.padded width b.toNat) : a = b :=
  UInt8.toNat_inj.mp (Hex.padded_inj (String.append_right_inj name |>.mp h))

/-- A word is shown behind its name. -/
theorem word_inj {name : String} {width : Nat} {a b : Word}
    (h : name ++ Hex.padded width a.toNat = name ++ Hex.padded width b.toNat) : a = b :=
  UInt16.toNat_inj.mp (Hex.padded_inj (String.append_right_inj name |>.mp h))

/-! ## The line of the report -/

/-- How a run ended, word by word. -/
def Outcome.words : Outcome → List String
  | .halted => ["halted"]
  | .budgetExhausted => ["instruction", "budget", "exhausted"]
  | .waitingForKey => ["waiting", "for", "a", "key"]
  | .breakpoint address => ["hit", "breakpoint", "at", "0x" ++ Hex.padded 3 address.toNat]

theorem Outcome.text_eq (outcome : Outcome) (digits : String) :
    outcome.text ++ " after " ++ digits ++ " instructions"
      = " ".intercalate (outcome.words ++ ["after", digits, "instructions"]) := by
  -- The text is given by `change`, since the equations of `Outcome.text` are too large for simp.
  apply String.toList_inj.mp
  cases outcome with
  | halted =>
    change ("halted" ++ " after " ++ digits ++ " instructions").toList = _
    simp [words]
  | budgetExhausted =>
    change ("instruction budget exhausted" ++ " after " ++ digits ++ " instructions").toList = _
    simp [words]
  | waitingForKey =>
    change ("waiting for a key" ++ " after " ++ digits ++ " instructions").toList = _
    simp [words]
  | breakpoint address =>
    change ("hit breakpoint at 0x" ++ Hex.padded 3 address.toNat ++ " after " ++ digits
      ++ " instructions").toList = _
    simp [words]

theorem Outcome.isToken_words (outcome : Outcome) : ∀ w ∈ outcome.words, IsToken w := by
  cases outcome with
  | halted => decide
  | budgetExhausted => decide
  | waitingForKey => decide
  | breakpoint address =>
    have haddress : IsToken ("0x" ++ Hex.padded 3 address.toNat) :=
      .append (by decide) (isToken_padded 3 _)
    simp only [words, List.forall_mem_cons]
    exact ⟨by decide, by decide, by decide, haddress, nofun⟩

theorem Outcome.words_inj {outcome outcome' : Outcome} (h : outcome.words = outcome'.words) :
    outcome = outcome' := by
  cases outcome <;> cases outcome' <;> simp [words] at h ⊢
  exact UInt16.toNat_inj.mp (Hex.padded_inj h)

namespace Report

/-- The line that is printed of a report. -/
def line (r : Report) : String :=
  r.outcome.text ++ " after " ++ toString r.steps ++ " instructions"

def words (r : Report) : List String :=
  r.outcome.words ++ ["after", toString r.steps, "instructions"]

theorem line_eq (r : Report) : r.line = " ".intercalate r.words :=
  r.outcome.text_eq (toString r.steps)

theorem isToken_words (r : Report) : ∀ w ∈ r.words, IsToken w := by
  refine List.forall_mem_append.mpr ⟨r.outcome.isToken_words, ?_⟩
  simp only [List.forall_mem_cons]
  exact ⟨by decide, isToken_toString _, by decide, nofun⟩

/-- The words of a report tell how the run ended and after how many instructions. -/
theorem words_inj {r r' : Report} (h : r.words = r'.words) : r = r' := by
  obtain ⟨outcome, steps⟩ := r
  obtain ⟨outcome', steps'⟩ := r'
  -- Behind the outcome there are always three words, whatever the outcome is.
  obtain ⟨houtcome, htail⟩ : outcome.words = outcome'.words ∧
      ["after", toString steps, "instructions"] = ["after", toString steps', "instructions"] :=
    List.append_inj' h rfl
  have hdigits : Nat.repr steps = Nat.repr steps' :=
    (List.cons.inj (List.cons.inj htail).2).1
  rw [Outcome.words_inj houtcome, Nat.repr_injective hdigits]

theorem line_inj {r r' : Report} (h : r.line = r'.line) : r = r' := by
  rw [line_eq, line_eq] at h
  exact words_inj (tokens_inj rfl (.inl rfl) r.isToken_words r'.isToken_words h)

end Report

/-! ## The lines of the machine -/

namespace Machine

variable {m n : Machine}

/-- The line with the program counter, the index register and the timers. -/
def statusLine (m : Machine) : String :=
  "PC=" ++ Hex.padded 4 m.pc.toNat ++ " I=" ++ Hex.padded 4 m.index.toNat
    ++ " DT=" ++ Hex.padded 2 m.delay.toNat ++ " ST=" ++ Hex.padded 2 m.sound.toNat

def statusWords (m : Machine) : List String :=
  ["PC=" ++ Hex.padded 4 m.pc.toNat, "I=" ++ Hex.padded 4 m.index.toNat,
    "DT=" ++ Hex.padded 2 m.delay.toNat, "ST=" ++ Hex.padded 2 m.sound.toNat]

theorem statusLine_eq (m : Machine) : m.statusLine = " ".intercalate m.statusWords := by
  apply String.toList_inj.mp
  simp [statusLine, statusWords]

theorem isToken_statusWords (m : Machine) : ∀ w ∈ m.statusWords, IsToken w := by
  simp only [statusWords, List.forall_mem_cons]
  exact ⟨.append (by decide) (isToken_padded 4 _), .append (by decide) (isToken_padded 4 _),
    .append (by decide) (isToken_padded 2 _), .append (by decide) (isToken_padded 2 _), nofun⟩

theorem statusLine_inj (h : m.statusLine = n.statusLine) :
    m.pc = n.pc ∧ m.index = n.index ∧ m.delay = n.delay ∧ m.sound = n.sound := by
  rw [statusLine_eq, statusLine_eq] at h
  have hwords := tokens_inj rfl (.inl rfl) m.isToken_statusWords n.isToken_statusWords h
  simp only [statusWords, List.cons.injEq, and_true] at hwords
  obtain ⟨hpc, hindex, hdelay, hsound⟩ := hwords
  exact ⟨word_inj hpc, word_inj hindex, byte_inj hdelay, byte_inj hsound⟩

/-- The line with the sixteen registers. -/
def registerLine (m : Machine) : String := " ".intercalate ((List.finRange 16).map m.registerText)

theorem isToken_registerText (m : Machine) (r : Nibble) : IsToken (m.registerText r) :=
  .append (.append (.append (by decide) (isToken_padded 1 _)) (by decide)) (isToken_padded 2 _)

theorem registerLine_inj (h : m.registerLine = n.registerLine) : m.registers = n.registers := by
  have htexts : (List.finRange 16).map m.registerText = (List.finRange 16).map n.registerText := by
    apply tokens_inj rfl (.inl rfl) ?_ ?_ h
    · exact List.forall_mem_map.mpr fun r _ => m.isToken_registerText r
    · exact List.forall_mem_map.mpr fun r _ => n.isToken_registerText r
  have hregister : ∀ r : Nibble, m.register r = n.register r := fun r =>
    byte_inj (List.map_inj_left.mp htexts r (List.mem_finRange r))
  exact Vector.ext fun i hi => hregister ⟨i, hi⟩

/-- The line with the live return addresses, oldest first. -/
def stackLine (m : Machine) : String :=
  "stack: [" ++ ", ".intercalate (m.stack.toList.map fun a => Hex.padded 4 a.toNat) ++ "]"

theorem isToken_stackWords (m : Machine) :
    ∀ w ∈ m.stack.toList.map fun a => Hex.padded 4 a.toNat, IsToken w :=
  List.forall_mem_map.mpr fun a _ => isToken_padded 4 a.toNat

theorem stackLine_inj (h : m.stackLine = n.stackLine) : m.stack.toList = n.stack.toList := by
  have htexts := tokens_inj rfl (.inr rfl) m.isToken_stackWords n.isToken_stackWords
    ((String.append_right_inj _).mp ((String.append_left_inj _).mp h))
  exact (List.map_inj_right fun _ _ hab => UInt16.toNat_inj.mp (Hex.padded_inj hab)).mp htexts

theorem pictureRow_inj {y : Nat} (h : m.pictureRow y = n.pictureRow y) {x : Nat} (hx : x < 64) :
    m.screen.pixel x y = n.screen.pixel x y := by
  have hchars := List.map_inj_left.mp (String.ofList_inj.mp h) x (List.mem_range.mpr hx)
  cases hm : m.screen.pixel x y <;> cases hn : n.screen.pixel x y <;> simp [hm, hn] at hchars ⊢

theorem length_pictureRow (m : Machine) (y : Nat) : (m.pictureRow y).length = 64 := by
  simp [pictureRow]

/-- Two machines agree in all that is shown of them. -/
structure ShownAlike (m n : Machine) : Prop where
  pc : m.pc = n.pc
  index : m.index = n.index
  delay : m.delay = n.delay
  sound : m.sound = n.sound
  registers : m.registers = n.registers
  stack : m.stack.toList = n.stack.toList
  picture : ∀ x < 64, ∀ y < 32, m.screen.pixel x y = n.screen.pixel x y

end Machine

/-! ## The transcript -/

/-- The lines that are printed after a run with a report, of the machine that it left. -/
def transcript (report : Report) (m : Machine) : List String := report.line :: m.summary

theorem transcript_eq (report : Report) (m : Machine) :
    transcript report m = [report.line, m.statusLine, m.registerLine, m.stackLine]
      ++ (List.range 32).map m.pictureRow := rfl

/-- The lines show a report and a machine: how the run ended and after how many instructions, the
program counter with the index register and the timers, the sixteen registers, the live return
addresses from the oldest on, and the picture with a character for each pixel. -/
structure Shows (lines : List String) (report : Report) (m : Machine) : Prop where
  report : lines[0]? = some (report.outcome.text ++ " after " ++ toString report.steps
    ++ " instructions")
  status : lines[1]? = some ("PC=" ++ Hex.padded 4 m.pc.toNat ++ " I=" ++ Hex.padded 4 m.index.toNat
    ++ " DT=" ++ Hex.padded 2 m.delay.toNat ++ " ST=" ++ Hex.padded 2 m.sound.toNat)
  registers : lines[2]? = some (" ".intercalate ((List.finRange 16).map fun r =>
    "V" ++ Hex.padded 1 r.val ++ "=" ++ Hex.padded 2 (m.register r).toNat))
  stack : lines[3]? = some ("stack: ["
    ++ ", ".intercalate (m.stack.toList.map fun a => Hex.padded 4 a.toNat) ++ "]")
  length : lines.length = 4 + 32
  picture : ∀ y < 32, ∃ row, lines[4 + y]? = some row ∧ row.length = 64 ∧
    ∀ x < 64, row.toList[x]? = some (if m.screen.pixel x y then '#' else '.')

theorem shows_transcript (report : Report) (m : Machine) :
    Shows (transcript report m) report m where
  report := rfl
  status := rfl
  registers := rfl
  stack := rfl
  length := by simp [transcript_eq]
  picture y hy := by
    refine ⟨m.pictureRow y, ?_, m.length_pictureRow y, fun x hx => ?_⟩
    · rw [transcript_eq, List.getElem?_append_right (Nat.le_add_right 4 y)]
      simp [hy]
    · simp [Machine.pictureRow, hx]

/-- Lines as one text, in which every line is ended. -/
def printed (lines : List String) : String := String.join (lines.map (· ++ "\n"))

theorem toList_printed (lines : List String) :
    (printed lines).toList = lines.flatMap fun l => l.toList ++ ['\n'] :=
  toList_join_ended lines

/-- Lines are told apart if no line has a line end in it. -/
theorem printed_inj {lines lines' : List String} (hlines : ∀ l ∈ lines, '\n' ∉ l.toList)
    (hlines' : ∀ l ∈ lines', '\n' ∉ l.toList) (h : printed lines = printed lines') :
    lines = lines' := by
  have htext := congrArg String.toList h
  rw [toList_printed, toList_printed] at htext
  clear h
  induction lines generalizing lines' with
  | nil =>
    cases lines' with
    | nil => rfl
    | cons l' lines' => simp at htext
  | cons l lines ih =>
    cases lines' with
    | nil => simp at htext
    | cons l' lines' =>
      obtain ⟨hl, hrest⟩ := List.forall_mem_cons.mp hlines
      obtain ⟨hl', hrest'⟩ := List.forall_mem_cons.mp hlines'
      simp only [List.flatMap_cons, List.append_assoc, List.singleton_append] at htext
      obtain ⟨hfirst, htail⟩ := append_cons_inj hl hl' htext
      rw [String.toList_inj.mp hfirst, ih hrest hrest' htail]

theorem lineEnd_not_mem_intercalate {ws : List String} {separator : String}
    (hseparator : '\n' ∉ separator.toList) (hws : ∀ w ∈ ws, IsToken w) :
    '\n' ∉ (separator.intercalate ws).toList := by
  rw [String.toList_intercalate]
  intro hend
  have hplain : ∀ c ∈ separator.toList, c ≠ '\n' := fun c hc heq => hseparator (heq ▸ hc)
  refine forall_mem_intercalate (P := (· ≠ '\n')) hplain ?_ _ hend rfl
  intro l hl c hc
  obtain ⟨w, hw, rfl⟩ := List.mem_map.mp hl
  exact ((hws w hw).2 c hc).2.2

theorem lineEnd_not_mem_transcript (report : Report) (m : Machine) :
    ∀ l ∈ transcript report m, '\n' ∉ l.toList := by
  rw [transcript_eq]
  refine List.forall_mem_append.mpr ⟨?_, List.forall_mem_map.mpr fun y _ => ?_⟩
  · simp only [List.forall_mem_cons]
    refine ⟨?_, ?_, ?_, ?_, nofun⟩
    · rw [report.line_eq]
      exact lineEnd_not_mem_intercalate (by decide) report.isToken_words
    · rw [m.statusLine_eq]
      exact lineEnd_not_mem_intercalate (by decide) m.isToken_statusWords
    · exact lineEnd_not_mem_intercalate (by decide)
        (List.forall_mem_map.mpr fun r _ => m.isToken_registerText r)
    · have hstack : '\n' ∉
          (", ".intercalate (m.stack.toList.map fun a => Hex.padded 4 a.toNat)).toList :=
        lineEnd_not_mem_intercalate (by decide) m.isToken_stackWords
      rw [Machine.stackLine, String.toList_append, String.toList_append, List.mem_append,
        List.mem_append, not_or, not_or]
      exact ⟨⟨by decide, hstack⟩, by decide⟩
  · rw [Machine.pictureRow, String.toList_ofList]
    intro hend
    obtain ⟨x, -, hx⟩ := List.mem_map.mp hend
    cases hlit : m.screen.pixel x y <;> simp [hlit] at hx

/-- The text of a transcript tells all that is shown. -/
theorem transcript_inj {report report' : Report} {m n : Machine}
    (h : printed (transcript report m) = printed (transcript report' n)) :
    report = report' ∧ m.ShownAlike n := by
  have hlines := printed_inj (lineEnd_not_mem_transcript report m)
    (lineEnd_not_mem_transcript report' n) h
  -- Four lines that are each read by itself, and the rows of the picture.
  rw [transcript_eq, transcript_eq] at hlines
  simp only [List.cons_append, List.nil_append, List.cons.injEq] at hlines
  obtain ⟨hreport, hstatus, hregisters, hstack, hrows⟩ := hlines
  obtain ⟨hpc, hindex, hdelay, hsound⟩ := Machine.statusLine_inj hstatus
  refine ⟨Report.line_inj hreport, hpc, hindex, hdelay, hsound,
    Machine.registerLine_inj hregisters, Machine.stackLine_inj hstack, fun x hx y hy => ?_⟩
  exact Machine.pictureRow_inj (List.map_inj_left.mp hrows y (List.mem_range.mpr hy)) hx

end ChipEight
