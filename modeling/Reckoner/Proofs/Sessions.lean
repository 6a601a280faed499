import Reckoner.Proofs.Commands
import Reckoner.Repl

/-!
# Interactive sessions lose and repeat nothing

A session takes the printed lines from its interpreter after every line that it runs. Compare this
with an interpreter that runs the same lines and keeps everything that it prints: between prompts
the session shows just what that interpreter adds to its output, and it lists the variables that
that interpreter has.
-/

namespace Reckoner

namespace Interpreter

/-! ## States without their printed lines -/

/-- A statement adds the same lines whatever was printed before. -/
theorem execute_takeOutput (state : Interpreter) (statement : Statement) :
    state.execute statement = (state.takeOutput.2.execute statement).map fun next =>
      { next with output := state.output ++ next.output } := by
  have hevaluate (e : Expr) : state.takeOutput.2.evaluate e = state.evaluate e := rfl
  cases statement with
  | assign name e =>
      rw [execute, execute, hevaluate]
      cases state.evaluate e with
      | error error => rfl
      | ok value =>
          simp [takeOutput, bind, Except.bind, pure, Except.pure, Except.map]
  | print e =>
      rw [execute, execute, hevaluate]
      cases state.evaluate e with
      | error error => rfl
      | ok value =>
          simp [takeOutput, bind, Except.bind, pure, Except.pure, Except.map]

/-- Statements end alike and add the same lines whatever was printed before. -/
theorem executeAll_takeOutput (state : Interpreter) (statements : List Statement) :
    state.executeAll statements =
      ((state.takeOutput.2.executeAll statements).1,
        { (state.takeOutput.2.executeAll statements).2 with
          output := state.output ++ (state.takeOutput.2.executeAll statements).2.output }) := by
  induction statements generalizing state with
  | nil => simp [executeAll, takeOutput]
  | cons statement rest ih =>
      have hexecute := state.execute_takeOutput statement
      cases h : state.takeOutput.2.execute statement with
      | error error =>
          rw [h] at hexecute
          rw [executeAll_of_error h, executeAll_of_error hexecute]
          simp [takeOutput]
      | ok next =>
          rw [h] at hexecute
          rw [executeAll_of_ok h, executeAll_of_ok hexecute, ih, ih next]
          simp [takeOutput, List.append_assoc]

/-- Running a text adds the same lines whatever was printed before. -/
theorem runSource_takeOutput (state : Interpreter) (source : String) :
    (state.runSource source).2 =
      { (state.takeOutput.2.runSource source).2 with
        output := state.output ++ (state.takeOutput.2.runSource source).2.output } := by
  cases h : Program.parse source with
  | error error =>
      rw [runSource_of_error h, runSource_of_error h]
      simp [takeOutput]
  | ok program =>
      rw [runSource_snd_of_parse h, runSource_snd_of_parse h, executeAll_takeOutput]

end Interpreter

namespace Repl

/-! ## Lines of a session -/

/-- Whether a line leaves the session. -/
def leaves (line : String) : Bool :=
  trimmed line == "exit" || trimmed line == "quit"

/-- Whether a line asks for the variables. -/
def isListing (line : String) : Bool :=
  trimmed line == "vars"

/-- Whether a line that does not leave the session is run: it is not blank and does not ask for the
variables. -/
def isRun (line : String) : Bool :=
  trimmed line != "" && !isListing line

/-- The lines that a session answers: those before the first one that leaves it. -/
def entered (lines : List String) : List String :=
  lines.takeWhile (!leaves ·)

/-- The state that lines leave when those that are run are run one after another on a new
interpreter, whatever fails, and what it prints is never taken. -/
def accumulated (lines : List String) : Interpreter :=
  (lines.filter isRun).foldl (fun state line => (state.runSource line).2) .fresh

/-- The lines that list the variables of a store. -/
def listing (store : Store) : List String :=
  store.entries.map fun (name, value) => s!"  {name} = {value.text}"

/-- The state behind a line when nothing is taken of what is printed. -/
def follow (state : Interpreter) (line : String) : Interpreter :=
  if isRun line then (state.runSource line).2 else state

theorem accumulated_eq (lines : List String) : accumulated lines = lines.foldl follow .fresh :=
  List.foldl_filter

/-- Whether a block of lines is what a session shows for a line, when `before` and `after` are the
states around it of an interpreter that keeps what it prints. -/
structure Fits (before after : Interpreter) (line : String) (block : List String) : Prop where
  /-- A line that is run shows what it adds to the output. -/
  ran : isRun line → after.output = before.output ++ block
  /-- A line that asks for the variables shows all of them, in their order. -/
  listed : isListing line → block = listing before.store
  /-- A blank line shows nothing. -/
  blank : isRun line = false → isListing line = false → block = []

theorem respond_eq (state : Interpreter) (line : String) :
    respond state line =
      if leaves line then none
      else if isRun line then some (runLine state line)
      else some (if isListing line then .listing state.store else .nothing, state) := by
  rw [respond]
  split <;> simp_all [leaves, isRun, isListing]

variable {state : Interpreter}

/-- A line that is run shows what it adds to the output, and then this is taken. -/
theorem runLine_takeOutput (state : Interpreter) (line : String) :
    (state.runSource line).2.output =
        state.output ++ (runLine state.takeOutput.2 line).1.lines ∧
      (runLine state.takeOutput.2 line).2 = (state.runSource line).2.takeOutput.2 := by
  rw [state.runSource_takeOutput line, runLine]
  rcases state.takeOutput.2.runSource line with ⟨_ | _, final⟩ <;> exact ⟨rfl, rfl⟩

/-- A session answers a line if it does not leave. What it shows fits the states of an interpreter
that keeps what it prints, and its own state remains that state without the printed lines. -/
theorem respond_takeOutput (state : Interpreter) {line : String} (h : leaves line = false) :
    ∃ response, respond state.takeOutput.2 line =
        some (response, (follow state line).takeOutput.2) ∧
      Fits state (follow state line) line response.lines := by
  rw [respond_eq, if_neg (by simp [h]), follow]
  cases hrun : isRun line with
  | true =>
      obtain ⟨houtput, hrest⟩ := runLine_takeOutput state line
      refine ⟨(runLine state.takeOutput.2 line).1, ?_, ?_⟩
      · simp only [if_true, ← hrest]
      · have hlisting : isListing line = false := by
          simp only [isRun, Bool.and_eq_true, Bool.not_eq_true'] at hrun
          exact hrun.2
        exact ⟨fun _ => houtput, by simp [hlisting], by simp [hrun]⟩
  | false =>
      refine ⟨if isListing line then .listing state.store else .nothing, rfl, ?_⟩
      exact ⟨by simp [hrun], fun hlisting => by rw [if_pos hlisting]; rfl,
        fun _ hlisting => by rw [hlisting]; rfl⟩

/-! ## Whole sessions -/

/-- Whether blocks of lines, one for each line that a session answers, are what it shows, when an
interpreter that keeps what it prints begins in the given state. -/
inductive Shows : Interpreter → List String → List (List String) → Prop
  | nil (state : Interpreter) : Shows state [] []
  | cons {state : Interpreter} {line : String} {lines block : List String}
      {blocks : List (List String)} (hfits : Fits state (follow state line) line block)
      (hrest : Shows (follow state line) lines blocks) :
      Shows state (line :: lines) (block :: blocks)

namespace Shows

variable {lines : List String} {blocks : List (List String)}

theorem length_eq (h : Shows state lines blocks) : blocks.length = lines.length := by
  induction h with
  | nil => rfl
  | cons _ _ ih => rw [List.length_cons, List.length_cons, ih]

/-- The blocks of the lines that are run make up what is added to the output. -/
theorem output_eq (h : Shows state lines blocks) :
    (lines.foldl follow state).output =
      state.output ++ ((lines.zip blocks).filter (isRun ·.1)).flatMap Prod.snd := by
  induction h with
  | nil => simp
  | @cons state line lines block blocks hfits _ ih =>
      rw [List.foldl_cons, ih, List.zip_cons_cons]
      cases hrun : isRun line with
      | true =>
          simp [hfits.ran hrun, hrun]
      | false =>
          have hsame : follow state line = state := if_neg (by simp [hrun])
          simp [hsame, hrun]

/-- Each block fits the states that the lines before it and up to it leave. -/
theorem fits (h : Shows state lines blocks) {k : Nat} {line : String} {block : List String}
    (hline : lines[k]? = some line) (hblock : blocks[k]? = some block) :
    Fits ((lines.take k).foldl follow state) ((lines.take (k + 1)).foldl follow state) line
      block := by
  induction h generalizing k with
  | nil => cases hline
  | cons hfits _ ih =>
      cases k with
      | zero =>
          cases hline
          cases hblock
          simpa only [List.take_zero, List.take_succ_cons, List.foldl_nil, List.foldl_cons]
            using hfits
      | succ k =>
          simpa only [List.take_succ_cons, List.foldl_cons] using ih hline hblock

end Shows

/-- A session shows what fits an interpreter that keeps what it prints. The induction is on the
lines, and the session stands in the state of that interpreter without its printed lines. -/
theorem shows_converse (state : Interpreter) (lines : List String) :
    Shows state (entered lines)
        ((converse state.takeOutput.2 (lines.map some)).1.map Response.lines) ∧
      (converse state.takeOutput.2 (lines.map some)).2 =
        if entered lines = lines then .endOfInput else .left := by
  induction lines generalizing state with
  | nil => exact ⟨.nil state, rfl⟩
  | cons line lines ih =>
      rw [List.map_cons, converse]
      cases h : leaves line with
      | true =>
          have hentered : entered (line :: lines) = [] := by simp [entered, h]
          rw [respond_eq, if_pos h, hentered]
          exact ⟨.nil state, rfl⟩
      | false =>
          obtain ⟨response, hresponse, hfits⟩ := respond_takeOutput state h
          obtain ⟨hshows, hending⟩ := ih (follow state line)
          have hentered : entered (line :: lines) = line :: entered lines := by
            simp [entered, h]
          rw [hresponse, hentered]
          exact ⟨.cons hfits hshows, by simpa using hending⟩

/-! ## What is shown -/

theorem hasLines_follow (h : state.HasLines) (line : String) : (follow state line).HasLines := by
  rw [follow]
  split
  · exact h.runSource line
  · exact h

/-- What fits a state whose variables are named by lines is made of lines. -/
theorem Fits.isLine {after : Interpreter} {line : String} {block : List String}
    (hfits : Fits state after line block) (h : state.HasLines) (hafter : after.HasLines) :
    ∀ shown ∈ block, IsLine shown := by
  intro shown hshown
  cases hrun : isRun line with
  | true => exact hafter.output shown (hfits.ran hrun ▸ List.mem_append_right _ hshown)
  | false =>
      cases hlisting : isListing line with
      | true =>
          rw [hfits.listed hlisting] at hshown
          obtain ⟨⟨name, value⟩, hentry, rfl⟩ := List.mem_map.mp hshown
          have hname : IsLine name := h.names name (List.mem_map_of_mem hentry)
          change IsLine ("  " ++ name ++ " = " ++ value.text)
          simp +decide [isLine_append, hname, value.isLine_text]
      | false =>
          rw [hfits.blank hrun hlisting] at hshown
          cases hshown

theorem Shows.isLine {lines : List String} {blocks : List (List String)}
    (hshows : Shows state lines blocks) (h : state.HasLines) :
    ∀ block ∈ blocks, ∀ shown ∈ block, IsLine shown := by
  induction hshows with
  | nil => simp
  | @cons state line lines block blocks hfits _ ih =>
      have hnext := hasLines_follow h line
      exact List.forall_mem_cons.mpr ⟨hfits.isLine h hnext, ih hnext⟩

/-- A session on lines of text shows a block of lines for each line up to the first that leaves it.
An interpreter that runs the same lines, and keeps what it prints, ends with the blocks of the lines
that are run as its output. Each of these blocks is what its line adds to that output, and a block
that lists variables shows those of that interpreter at its place. -/
theorem session_accumulates {input : ByteArray} {lines : List String}
    (h : (splitLines input.toList).map decodeLine = lines.map some) :
    ∃ blocks : List (List String),
      blocks.length = (entered lines).length ∧
      session input = ⟨banner ++ String.join (blocks.map fun block => prompt ++ unlines block) ++
        prompt ++ (if entered lines = lines then Ending.endOfInput else Ending.left).text,
        none, 0⟩ ∧
      (∀ block ∈ blocks, ∀ shown ∈ block, IsLine shown) ∧
      (accumulated (entered lines)).output =
        (((entered lines).zip blocks).filter (isRun ·.1)).flatMap Prod.snd ∧
      ∀ k line block, (entered lines)[k]? = some line → blocks[k]? = some block →
        Fits (accumulated ((entered lines).take k)) (accumulated ((entered lines).take (k + 1)))
          line block := by
  obtain ⟨hshows, hending⟩ := shows_converse .fresh lines
  have hfresh : Interpreter.fresh.takeOutput.2 = .fresh := rfl
  rw [hfresh] at hshows hending
  refine ⟨_, hshows.length_eq, ?_, hshows.isLine Interpreter.hasLines_fresh, ?_, ?_⟩
  · have hsession : session input =
        ⟨transcript (converse .fresh (lines.map some)).1 (converse .fresh (lines.map some)).2, none,
          (converse .fresh (lines.map some)).2.exitCode⟩ := by
      rw [session, h]
    rw [hsession, hending, transcript, List.map_map]
    split <;> rfl
  · rw [accumulated_eq, hshows.output_eq]
    rfl
  · intro k line block hline hblock
    rw [accumulated_eq, accumulated_eq]
    exact hshows.fits hline hblock

/-- In the session below the first line fails behind what it prints. The printed line is shown
before the next prompt, the variable that was assigned is listed, and then the session is left. -/
theorem session_accumulates_failing_line :
    let input := "let x = 1; print(x); print(x / 0);\n vars \r\nquit\nprint(2);".toUTF8
    let lines := ["let x = 1; print(x); print(x / 0);", " vars ", "quit", "print(2);"]
    (splitLines input.toList).map decodeLine = lines.map some ∧
      ∃ blocks : List (List String), blocks = [["1"], ["  x = 1"]] ∧
        (session input).output = banner ++
          String.join (blocks.map fun block => prompt ++ unlines block) ++ prompt ++ farewell ∧
        (accumulated (entered lines)).output = ["1"] ∧
        (accumulated (entered lines)).output =
          (((entered lines).zip blocks).filter (isRun ·.1)).flatMap Prod.snd := by
  intro input lines
  have hlines : (splitLines input.toList).map decodeLine = lines.map some := by decide +kernel
  have hentered : entered lines = lines.take 2 := by decide +kernel
  obtain ⟨blocks, hlength, hsession, -, houtput, hfits⟩ := session_accumulates hlines
  rw [hentered] at hlength houtput hfits
  obtain ⟨shown, listed, rfl⟩ := List.length_eq_two.mp hlength
  have hshown : ["1"] = shown := by
    have hran := (hfits 0 _ shown rfl rfl).ran (by decide +kernel)
    have hafter : (accumulated ((lines.take 2).take 1)).output = ["1"] := by decide +kernel
    rwa [hafter] at hran
  have hlisted : listed = ["  x = 1"] := by
    have hstore : listing (accumulated ((lines.take 2).take 1)).store = ["  x = 1"] := by
      decide +kernel
    rw [← hstore]
    exact (hfits 1 _ listed rfl rfl).listed (by decide +kernel)
  subst hshown hlisted
  refine ⟨hlines, _, rfl, ?_, ?_, ?_⟩
  · rw [hsession, hentered, if_neg (by decide)]
    rfl
  · rw [hentered, houtput]
    decide +kernel
  · rwa [hentered]

end Repl

end Reckoner
