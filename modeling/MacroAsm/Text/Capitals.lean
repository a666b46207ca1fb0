/-!
# MacroAsm.Text.Capitals

Words compared without regard to case.  Unicode gives some letters outside
`a`–`z` an upper-case form that is spelled with the letters `A`–`Z` alone: the
dotless i, the long s, the sharp s and the Latin ligatures.  They take part in
the comparison, and every other character stands for itself.
-/

namespace MacroAsm.Text

/-- The upper-case form of a character, as far as it is spelled with the
letters `A`–`Z`. -/
def capitals (c : Char) : List Char :=
  match c with
  | 'ı' => ['I']
  | 'ſ' => ['S']
  | 'ß' => ['S', 'S']
  | 'ﬀ' => ['F', 'F']
  | 'ﬁ' => ['F', 'I']
  | 'ﬂ' => ['F', 'L']
  | 'ﬃ' => ['F', 'F', 'I']
  | 'ﬄ' => ['F', 'F', 'L']
  | 'ﬅ' => ['S', 'T']
  | 'ﬆ' => ['S', 'T']
  | c => [c.toUpper]

/-- A word in capitals. -/
def capitalize (word : String) : String :=
  String.ofList (word.toList.flatMap capitals)

end MacroAsm.Text
