/-!
# Places in a source text

A position is determined by the text before it: the number of its bytes, and the line and column
at which the next character stands. Lines and columns start at one, and a column counts
characters, not bytes.
-/

namespace Reckoner

/-- A place between two characters of a source text. -/
@[ext] structure Position where
  /-- Number of bytes before the place. -/
  offset : Nat
  /-- One more than the number of line feeds before the place. -/
  line : Nat
  /-- One more than the number of characters since the last line feed. -/
  column : Nat
deriving DecidableEq, Repr

namespace Position

/-- The place before the first character. -/
def start : Position := ⟨0, 1, 1⟩

/-- The place behind `c`, when `c` stands at `p`. -/
def advance (p : Position) (c : Char) : Position :=
  if c = '\n' then ⟨p.offset + c.utf8Size, p.line + 1, 1⟩
  else ⟨p.offset + c.utf8Size, p.line, p.column + 1⟩

/-- The place behind `text`, when `text` stands at `p`. -/
def after (p : Position) (text : List Char) : Position :=
  text.foldl advance p

/-- The place behind `text`, when `text` stands at `p` and has no line feed. -/
def skip (p : Position) (text : List Char) : Position :=
  ⟨p.offset + (String.ofList text).utf8ByteSize, p.line, p.column + text.length⟩

@[simp] theorem after_nil (p : Position) : p.after [] = p := rfl

@[simp] theorem after_cons (p : Position) (c : Char) (text : List Char) :
    p.after (c :: text) = (p.advance c).after text := rfl

/-- Passing two texts in turn is passing them joined. -/
theorem after_append (p : Position) (s t : List Char) :
    p.after (s ++ t) = (p.after s).after t := by
  simp [after]

theorem skip_cons {c : Char} (h : c ≠ '\n') (p : Position) (text : List Char) :
    p.skip (c :: text) = (p.advance c).skip text := by
  simp only [skip, advance, h, if_false, String.ofList_cons, String.utf8ByteSize_append,
    String.utf8ByteSize_singleton, List.length_cons, mk.injEq, true_and]
  omega

/-- Skipping a text that has no line feed is passing its characters one by one. -/
theorem skip_eq_after {text : List Char} (h : '\n' ∉ text) (p : Position) :
    p.skip text = p.after text := by
  induction text generalizing p with
  | nil => rfl
  | cons c text ih =>
      obtain ⟨hc, htext⟩ := List.ne_and_not_mem_of_not_mem_cons h
      rw [skip_cons hc.symm, ih htext, after_cons]

end Position

end Reckoner
