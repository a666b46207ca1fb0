/-!
# MacroAsm.Text.Plain

Text without control sequences.  A control sequence tells a terminal to change
colour, to move or to erase: an escape character, an opening bracket, any number
of digits, semicolons and question marks, and a letter.  What is not a whole
sequence is text like any other.
-/

namespace MacroAsm.Text

/-- The character that begins a control sequence. -/
def escape : Char := '\x1b'

/-- Characters between the bracket of a control sequence and its last letter. -/
def isSequenceParameter (c : Char) : Bool := c.isDigit || c == ';' || c == '?'

/-- What comes after the control sequence that a text begins with, if it begins
with one. -/
def afterSequence? : List Char → Option (List Char)
  | first :: '[' :: text =>
    if first = escape then
      match text.dropWhile isSequenceParameter with
      | last :: rest => if last.isAlpha then some rest else none
      | [] => none
    else none
  | _ => none

theorem length_lt_of_afterSequence? {text rest : List Char} (h : afterSequence? text = some rest) :
    rest.length < text.length := by
  unfold afterSequence? at h
  split at h
  case h_1 first text =>
    have := (List.dropWhile_sublist isSequenceParameter (l := text)).length_le
    grind
  case h_2 => contradiction

/-- Characters without their control sequences, behind those that are done
already; the latter come last first. -/
def plainAfter (done text : List Char) : List Char :=
  match text with
  | [] => done.reverse
  | c :: text =>
    match h : afterSequence? (c :: text) with
    | some rest =>
      have := length_lt_of_afterSequence? h
      plainAfter done rest
    | none => plainAfter (c :: done) text
termination_by text.length
decreasing_by
  · assumption
  · exact Nat.lt_succ_self _

/-- A text without its control sequences. -/
def plain (text : String) : String := String.ofList (plainAfter [] text.toList)

/-! ## Text that has none -/

end MacroAsm.Text
