import Reckoner.Proofs.Boundaries
import Reckoner.Proofs.Executors
import Reckoner.Proofs.Places
import Reckoner.Proofs.Relocation

/-!
# Joining source texts

Texts that are joined by line feeds are read as their parts one after another. A line feed ends
every comment and every token, so no item spans two parts, and a part that is a program by itself is
one in its place. Running the joined text is running the parts in turn up to the first failure; only
the places of the later parts are counted on.
-/

namespace Reckoner

/-! ## Items of joined texts -/

namespace TokenStream

theorem prepend_append_stream (u : List Token) (stream other : TokenStream) :
    (stream.prepend u).append other = (stream.append other).prepend u := by
  simp [prepend, append]

/-- A line feed separates the items before it from those behind it. -/
theorem ofChars_seam (p : Position) (text rest : List Char) :
    ofChars p (text ++ '\n' :: rest) =
      (ofChars p text).append (ofChars ((p.after text).advance '\n') rest) := by
  have hseam : BeginsAlike ('\n' :: rest) [] := fun c hc => .inl (Option.some.inj hc).symm
  rw [ofChars_append ((isScanned_nil text).congr hseam), ofChars_blank rfl]

end TokenStream

/-! ## Programs in joined texts -/

/-- Behind a stream that is read to its end, reading goes on with the stream that follows. -/
theorem Reading.statements_append {stream : TokenStream} {found : List Statement}
    (h : statements stream = (found, none)) (other : TokenStream) :
    statements (stream.append other) =
      (found ++ (statements other).1, (statements other).2) := by
  induction stream using statements.induct generalizing found with
  | case1 stream hend =>
      rw [statements_of_atEnd hend] at h
      obtain ⟨rfl, -⟩ := Prod.mk.inj h
      have hother : stream.append other = other := by
        rw [TokenStream.append, List.isEmpty_iff.mp hend, List.nil_append]
      rw [hother, List.nil_append]
  | case2 stream hend error rest hon =>
      rw [statements_of_error hend hon] at h
      cases (Prod.mk.inj h).2
  | case3 stream hend first rest hon ih =>
      rw [statements_of_ok hon] at h
      obtain ⟨rfl, hnone⟩ := Prod.mk.inj h
      obtain ⟨u, rfl, hu⟩ := yields_statement hon
      have hfirst := statement_on_prepend hu.derives hu.depth_le hu.nests (rest.append other)
      rw [TokenStream.prepend_append_stream, statements_of_ok hfirst, ih (Prod.ext rfl hnone),
        List.cons_append]

/-- The place that a place of a text becomes when the text is put below `source`. -/
def Position.below (source : String) (p : Position) : Position :=
  ⟨source.utf8ByteSize + 1 + p.offset, source.toList.count '\n' + 1 + p.line, p.column⟩

namespace Position

theorem below_advance (source : String) (p : Position) (c : Char) :
    below source (p.advance c) = (below source p).advance c := by
  by_cases hc : c = '\n'
  · simp [below, advance, hc, Nat.add_assoc]
  · simp [below, advance, hc, Nat.add_assoc]

theorem below_start (source : String) :
    below source start = (start.after source.toList).advance '\n' := by
  rw [after_start, String.ofList_toList]
  have hfeed : '\n'.utf8Size = 1 := rfl
  simp [below, start, behind, advance, hfeed, Nat.add_comm]

end Position

theorem TokenStream.ofString_below (source rest : String) :
    ofString (source ++ "\n" ++ rest) =
      (ofString source).append ((ofString rest).relocate (.below source)) := by
  have htext : (source ++ "\n" ++ rest).toList = source.toList ++ '\n' :: rest.toList := by
    simp [String.toList_append]
  rw [ofString, htext, ofChars_seam, ← Position.below_start,
    ← ofChars_relocate (Position.below_advance source)]
  rfl

/-- The program of a text with another one below it. -/
def Program.above (program : Program) (source : String) (rest : Program) : Program :=
  ⟨program.statements ++ rest.statements.map (Statement.relocate (.below source))⟩

theorem Program.parse_below {source other : String} {program rest : Program}
    (h : parse source = .ok program) (hrest : parse other = .ok rest) :
    parse (source ++ "\n" ++ other) = .ok (program.above source rest) := by
  rw [parse_eq_ok_iff_statements] at h hrest ⊢
  rw [TokenStream.ofString_below, Reading.statements_append h, Reading.statements_relocate, hrest]
  rfl

/-- The statements of programs, when the texts that they are read from are joined by line feeds. -/
def Program.joined : List (String × Program) → List Statement
  | [] => []
  | (source, program) :: rest =>
    program.statements ++ (joined rest).map (Statement.relocate (.below source))

/-- Texts that are programs are one program when they are joined by line feeds. -/
theorem Program.parse_intercalate {pieces : List (String × Program)}
    (h : ∀ piece ∈ pieces, parse piece.1 = .ok piece.2) :
    parse ("\n".intercalate (pieces.map Prod.fst)) = .ok ⟨joined pieces⟩ := by
  induction pieces with
  | nil =>
      rw [parse_eq_ok_iff_statements]
      decide +kernel
  | cons piece rest ih =>
      obtain ⟨hfirst, hrest⟩ := List.forall_mem_cons.mp h
      rcases piece with ⟨source, program⟩
      cases rest with
      | nil =>
          rw [List.map_cons, List.map_nil, String.intercalate_singleton, hfirst]
          simp [joined]
      | cons next further =>
          rw [List.map_cons, List.map_cons, String.intercalate_cons_cons]
          exact parse_below hfirst (ih hrest)

/-! ## Running joined texts -/

/-- What two runs in turn leave: the lines of both, and the store behind the second. -/
def Outcome.followedBy (first second : Outcome) : Outcome :=
  ⟨first.output ++ second.output, second.store⟩

namespace Interpreter

variable {state next : Interpreter}

/-- Runs source texts one after another up to the first failure. Places are counted on from text to
text, as if the texts were one with a line feed between them. -/
def runSources (state : Interpreter) : List String → Except Failure Outcome × Interpreter
  | [] => (.ok ⟨[], state.store⟩, state)
  | source :: rest =>
    match state.runSource source with
    | (.error failure, next) => (.error failure, next)
    | (.ok outcome, next) =>
      let (result, final) := next.runSources rest
      ((result.map outcome.followedBy).mapError (Failure.relocate (.below source)), final)

theorem executeAll_append (state : Interpreter) (first second : List Statement) :
    state.executeAll (first ++ second) =
      match state.executeAll first with
      | (none, next) => next.executeAll second
      | (some error, next) => (some error, next) := by
  induction first generalizing state with
  | nil => rfl
  | cons statement first ih =>
      cases h : state.execute statement with
      | error error => rw [List.cons_append, executeAll_of_error h, executeAll_of_error h]
      | ok next => rw [List.cons_append, executeAll_of_ok h, executeAll_of_ok h, ih]

/-- Running statements keeps the lines printed before. -/
theorem prefix_output_executeAll (state : Interpreter) (statements : List Statement) :
    state.output <+: (state.executeAll statements).2.output := by
  rw [(records_traceFrom state 0 statements).output_eq]
  exact List.prefix_append _ _

/-- Running a program with another one below it is running the two in turn. -/
theorem run_above (state : Interpreter) (program : Program) (source : String) (rest : Program) :
    state.run (program.above source rest) =
      match state.run program with
      | (.error error, next) => (.error error, next)
      | (.ok outcome, next) =>
        (((next.run rest).1.map outcome.followedBy).mapError
          (RuntimeError.relocate (.below source)), (next.run rest).2) := by
  obtain ⟨lines, hlines⟩ := prefix_output_executeAll state program.statements
  rcases hrun : state.executeAll program.statements with ⟨_ | error, next⟩
  · obtain ⟨further, hfurther⟩ := prefix_output_executeAll next rest.statements
    rcases hnext : next.executeAll rest.statements with ⟨_ | error, final⟩
    · rw [hrun] at hlines
      rw [hnext] at hfurther
      simp only at hlines hfurther
      simp [run, Program.above, executeAll_append, executeAll_relocate, hrun, hnext, Except.map,
        Except.mapError, Outcome.followedBy, ← hfurther, ← hlines]
    · simp [run, Program.above, executeAll_append, executeAll_relocate, hrun, hnext, Except.map,
        Except.mapError]
  · simp [run, Program.above, executeAll_append, hrun]

theorem runSource_of_parse {source : String} {program : Program}
    (h : Program.parse source = .ok program) (state : Interpreter) :
    state.runSource source =
      ((state.run program).1.mapError .run, (state.run program).2) := by
  simp only [runSource, h]

theorem runSource_below {source other : String} {program rest : Program}
    (h : Program.parse source = .ok program) (hrest : Program.parse other = .ok rest)
    (state : Interpreter) :
    state.runSource (source ++ "\n" ++ other) =
      match state.runSource source with
      | (.error failure, next) => (.error failure, next)
      | (.ok outcome, next) =>
        (((next.runSource other).1.map outcome.followedBy).mapError
          (Failure.relocate (.below source)), (next.runSource other).2) := by
  rw [runSource_of_parse (Program.parse_below h hrest), runSource_of_parse h, run_above]
  rcases state.run program with ⟨error | outcome, next⟩
  · rfl
  · simp only [Except.mapError, runSource_of_parse hrest]
    rcases next.run rest with ⟨error | further, final⟩ <;> rfl

/-- Running texts that are joined by line feeds is running them one after another. -/
theorem runSource_intercalate {pieces : List (String × Program)}
    (h : ∀ piece ∈ pieces, Program.parse piece.1 = .ok piece.2) (state : Interpreter) :
    state.runSource ("\n".intercalate (pieces.map Prod.fst)) =
      state.runSources (pieces.map Prod.fst) := by
  induction pieces generalizing state with
  | nil =>
      have hparse : Program.parse "" = .ok ⟨[]⟩ := @Program.parse_intercalate [] h
      rw [List.map_nil, String.intercalate_nil, runSource_of_parse hparse]
      simp [run, executeAll, runSources, Except.mapError]
  | cons piece rest ih =>
      obtain ⟨hfirst, hrest⟩ := List.forall_mem_cons.mp h
      rcases piece with ⟨source, program⟩
      cases rest with
      | nil =>
          rw [List.map_cons, List.map_nil, String.intercalate_singleton, runSources,
            runSource_of_parse hfirst, run]
          rcases state.executeAll program.statements with ⟨_ | error, final⟩
          · simp [runSources, Except.map, Except.mapError, Outcome.followedBy]
          · rfl
      | cons next further =>
          have hbelow := runSource_below hfirst (Program.parse_intercalate hrest) state
          rw [List.map_cons, List.map_cons, String.intercalate_cons_cons, ← List.map_cons, hbelow,
            runSources]
          rcases state.runSource source with ⟨error | outcome, next⟩
          · rfl
          · simp only [ih hrest]

/-- Two texts that are programs are one program when a line feed joins them: the statements of the
first and then those of the second, whose places are counted on. If running the first one succeeds,
running the joined text leaves what running the second one behind it leaves, with the lines of both,
and succeeds or fails like it, at the place counted on. The same is true of any number of texts that
are run one after another up to the first failure. -/
theorem pieces_eq_joined :
    (∀ (first second : String) (program rest : Program),
      Program.parse first = .ok program → Program.parse second = .ok rest →
        Program.parse (first ++ "\n" ++ second) =
          .ok ⟨program.statements ++ rest.statements.map (Statement.relocate (.below first))⟩ ∧
        ∀ (state next : Interpreter) (outcome : Outcome),
          state.runSource first = (.ok outcome, next) →
            state.runSource (first ++ "\n" ++ second) =
              (((next.runSource second).1.map outcome.followedBy).mapError
                (Failure.relocate (.below first)), (next.runSource second).2)) ∧
      ∀ pieces : List (String × Program),
        (∀ piece ∈ pieces, Program.parse piece.1 = .ok piece.2) →
          Program.parse ("\n".intercalate (pieces.map Prod.fst)) = .ok ⟨Program.joined pieces⟩ ∧
          ∀ state : Interpreter, state.runSource ("\n".intercalate (pieces.map Prod.fst)) =
            state.runSources (pieces.map Prod.fst) := by
  constructor
  · intro first second program rest hfirst hsecond
    refine ⟨Program.parse_below hfirst hsecond, ?_⟩
    intro state next outcome hrun
    rw [runSource_below hfirst hsecond, hrun]
  · intro pieces h
    exact ⟨Program.parse_intercalate h, runSource_intercalate h⟩

/-- The division in the second of two lines fails, whether the lines are run together or apart. The
first line ends with a comment. -/
theorem pieces_eq_joined_division :
    let first := "let x = 1; // é"
    let second := "print(x / 0);"
    let program : Program := ⟨[.assign "x" (.literal (.int 1))]⟩
    let rest : Program := ⟨[.print (.operation .divide (.reference "x" ⟨6, 1, 7⟩)
      (.literal (.int 0)) ⟨8, 1, 9⟩)]⟩
    let next : Interpreter := ⟨Store.empty.define "x" (.int 1), []⟩
    Program.parse first = .ok program ∧ Program.parse second = .ok rest ∧
      fresh.runSource first = (.ok ⟨[], next.store⟩, next) ∧
      fresh.runSource (first ++ "\n" ++ second) =
        (.error (.run (.divisionByZero ⟨25, 2, 9⟩)), next) ∧
      fresh.runSource ("\n".intercalate [first, second]) = fresh.runSources [first, second] := by
  intro first second program rest next
  have hfirst : Program.parse first = .ok program :=
    Program.parse_eq_ok_iff_statements.mpr (by decide +kernel)
  have hsecond : Program.parse second = .ok rest :=
    Program.parse_eq_ok_iff_statements.mpr (by decide +kernel)
  have hrun : fresh.runSource first = (.ok ⟨[], next.store⟩, next) := by
    rw [runSource_of_parse hfirst]
    rfl
  have hplace : Position.below first ⟨8, 1, 9⟩ = ⟨25, 2, 9⟩ := by decide +kernel
  have hdivision : next.run rest = (.error (.divisionByZero ⟨8, 1, 9⟩), next) := by rfl
  have hjoined := (pieces_eq_joined.1 first second program rest hfirst hsecond).2 fresh next _ hrun
  rw [runSource_of_parse hsecond, hdivision] at hjoined
  simp only [Except.map, Except.mapError, Failure.relocate, RuntimeError.relocate, hplace]
    at hjoined
  have hpieces : ∀ piece ∈ [(first, program), (second, rest)],
      Program.parse piece.1 = .ok piece.2 := by
    simp [hfirst, hsecond]
  exact ⟨hfirst, hsecond, hrun, hjoined, (pieces_eq_joined.2 _ hpieces).2 fresh⟩

end Interpreter

end Reckoner
