/-!
# Lines of a text

A text is cut into lines at line feeds. A carriage return directly before a line feed belongs to the
line end; any other carriage return belongs to its line. The end of the text closes the last line
only if something follows the last line feed, so a final line feed opens no further line and the
empty text has none.

* `lines_of_no_feed`: a non-empty text without a line feed is its own single line.
-/

namespace ScopeScript.Text

/-- A line without the carriage return that would end it. -/
def dropFinalReturn (line : List Char) : List Char :=
  if line.getLast? = some '\r' then line.dropLast else line

/-- The lines of a text of which `line`, written in reverse, is the open line so far. -/
def linesFrom (line : List Char) : List Char → List (List Char)
  | [] => if line.isEmpty then [] else [line.reverse]
  | c :: rest =>
    if c = '\n' then dropFinalReturn line.reverse :: linesFrom [] rest
    else linesFrom (c :: line) rest

/-- The lines of a text, without their line ends. -/
def lines (s : String) : List String :=
  (linesFrom [] s.toList).map String.ofList

/-- The empty text has no lines. -/
@[simp]
theorem lines_empty : lines "" = [] := rfl

/-- A text that holds no line feed only extends the open line. -/
theorem linesFrom_append_of_no_feed (line : List Char) {cs : List Char} (h : '\n' ∉ cs)
    (rest : List Char) : linesFrom line (cs ++ rest) = linesFrom (cs.reverse ++ line) rest := by
  induction cs generalizing line with
  | nil => rfl
  | cons c cs ih =>
    have hc : c ≠ '\n' := fun e => h (e ▸ List.mem_cons_self)
    have hcs : '\n' ∉ cs := fun m => h (List.mem_cons_of_mem _ m)
    simp [linesFrom, hc, ih _ hcs]

/-- A non-empty text without a line feed is its own single line, a final carriage return
included. -/
theorem lines_of_no_feed {s : String} (hs : s ≠ "") (h : '\n' ∉ s.toList) : lines s = [s] := by
  have he : s.toList ≠ [] := by simpa using hs
  have := linesFrom_append_of_no_feed [] h []
  simp only [List.append_nil] at this
  simp [lines, this, linesFrom, he]

/-- A final line feed opens no line, a carriage return before it is dropped, and one that ends the
text stays. -/
example : lines "a\r\n\nb\r" = ["a", "", "b\r"] ∧ lines "a\n" = ["a"] := by decide +kernel

end ScopeScript.Text
