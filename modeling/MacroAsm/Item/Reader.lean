import MacroAsm.Event
import MacroAsm.Item
import MacroAsm.Item.Fault
import MacroAsm.Word

/-!
# MacroAsm.Item.Reader

Reading tokens as a program:

```text
program     = (newline* item)* newline*
item        = comment | declaration | call | instruction
instruction = [label] OPCODE [operand]
call        = NAME "!(" names ")"
declaration = NAME "(" names ")" newline* "=" newline* "{" program "}"
names       = [NAME ("," NAME)*]          -- newlines anywhere between
```

`front` reads what stands next: a whole item, the head of a declaration, a
closing brace or the end.  `build` puts the items together and keeps the bodies
that are still open in a list, innermost first.  Each step takes at least one
token, so the reading ends.
-/

namespace MacroAsm.Reader

/-- Tokens with the end of input left out, and the place where it is. -/
structure Input where
  tokens : List Token
  stop : Location
deriving DecidableEq, Repr

/-- The tokens up to the end of input.  If a list of tokens names no end, it
ends at its last token, in the given file. -/
def Input.ofTokens (file : String) (tokens : List Token) : Input :=
  let isEnd (t : Token) : Bool := t.lexeme == .endOfInput
  { tokens := tokens.takeWhile fun t => !isEnd t
    stop :=
      match tokens.find? isEnd with
      | some t => t.location
      | none =>
        match tokens.getLast? with
        | some t => { t.location with file := file }
        | none => .start file }

/-- A fault and the place where reading stopped. -/
structure Halt where
  fault : Fault
  location : Location
deriving DecidableEq, Repr

/-! ## Parts of items -/

/-- The next token, which past the last one is the end of input. -/
def peek (stop : Location) : List Token → Token
  | [] => ⟨.endOfInput, stop⟩
  | t :: _ => t

/-- Stop at the next token. -/
def halt {α : Type} (stop : Location) (ts : List Token) (fault : Lexeme → Fault) :
    Except Halt α :=
  let t := peek stop ts
  .error ⟨fault t.lexeme, t.location⟩

/-- The tokens after any line ends. -/
def skipNewlines : List Token → List Token
  | ⟨.newline, _⟩ :: ts => skipNewlines ts
  | ts => ts

theorem length_skipNewlines_le (ts : List Token) :
    (skipNewlines ts).length ≤ ts.length := by
  fun_induction skipNewlines ts with
  | case1 => simp only [List.length_cons]; omega
  | case2 => omega

/-- At least one name, up to and including the closing parenthesis. -/
def someNames (stop : Location) (role : NameRole) (ts : List Token) :
    Except Halt (List String × List Token) :=
  match _h : skipNewlines ts with
  | ⟨.word name, place⟩ :: afterName =>
    if Word.isName name then
      match _h' : skipNewlines afterName with
      | ⟨.mark .comma _, _⟩ :: rest =>
        match someNames stop role rest with
        | .ok (more, rest) => .ok (name :: more, rest)
        | .error e => .error e
      | ⟨.mark .closeParen _, _⟩ :: rest => .ok ([name], rest)
      | rest => halt stop rest (.noSeparator role)
    else .error ⟨.badName role name, place⟩
  | rest => halt stop rest (.noName role)
termination_by ts.length
decreasing_by
  have h₁ := length_skipNewlines_le ts
  have h₂ := length_skipNewlines_le afterName
  simp_all only [List.length_cons]
  omega

/-- The names in parentheses, once the opening one is read. -/
def names (stop : Location) (role : NameRole) (ts : List Token) :
    Except Halt (List String × List Token) :=
  match skipNewlines ts with
  | ⟨.mark .closeParen _, _⟩ :: rest => .ok ([], rest)
  | rest => someNames stop role rest

/-- An optional operand and the end of an instruction. -/
def operand : List Token → Option String × List Token
  | ⟨.word text, _⟩ :: rest => (some text, rest)
  | rest => (none, rest)

/-- An instruction that starts with a given word. -/
def instruction (stop : Location) (word : String) (place : Location) (ts : List Token) :
    Except Halt (Instruction × List Token) :=
  match Opcode.ofWord? word with
  | some opcode =>
    let (operand, rest) := operand ts
    .ok (⟨opcode, none, operand, some place⟩, rest)
  | none =>
    if Word.isLabel word then
      match ts with
      | ⟨.word name, found⟩ :: ts =>
        match Opcode.ofWord? name with
        | some opcode =>
          let (operand, rest) := operand ts
          .ok (⟨opcode, some word, operand, some place⟩, rest)
        | none => .error ⟨.badOpcode word name, found⟩
      | ts => halt stop ts (.noOpcode word)
    else .error ⟨.badLabel word, place⟩

/-- What a declaration says before its body. -/
structure Head where
  name : String
  parameters : List String
  location : Location
  opened : Location
deriving DecidableEq, Repr

/-- The rest of the head of a declaration, once its opening parenthesis is
read. -/
def head (stop : Location) (name : String) (place : Location) (ts : List Token) :
    Except Halt (Head × List Token) :=
  match names stop .parameter ts with
  | .error e => .error e
  | .ok (parameters, ts) =>
    match skipNewlines ts with
    | ⟨.mark .equals _, _⟩ :: ts =>
      match skipNewlines ts with
      | ⟨.mark .openBrace _, opened⟩ :: ts => .ok (⟨name, parameters, place, opened⟩, ts)
      | ts => halt stop ts (.noBody name)
    | ts => halt stop ts (.noEquals name)

/-! ## One step -/

/-- What stands next in a program, and the tokens after it. -/
inductive Front where
  | finish
  | close (place : Location) (rest : List Token)
  | item (item : Item) (rest : List Token)
  | opening (head : Head) (rest : List Token)

/-- The tokens that a step leaves. -/
def Front.rest : Front → List Token
  | finish => []
  | close _ rest => rest
  | item _ rest => rest
  | opening _ rest => rest

/-- Read what stands next, line ends aside. -/
def front (stop : Location) (ts : List Token) : Except Halt Front :=
  match skipNewlines ts with
  | [] => .ok .finish
  | ⟨.mark .closeBrace _, place⟩ :: ts => .ok (.close place ts)
  | ⟨.comment text, place⟩ :: ts => .ok (.item (.comment text (some place)) ts)
  | ⟨.word word, place⟩ :: ⟨.mark .openParen _, _⟩ :: ts =>
    if Word.isName word then (head stop word place ts).map fun (h, rest) => .opening h rest
    else .error ⟨.badMacroName word, place⟩
  | ⟨.word word, place⟩ :: ⟨.mark .callOpen _, _⟩ :: ts =>
    if Word.isName word then
      (names stop .argument ts).map fun (arguments, rest) =>
        .item (.call ⟨word, arguments, some place⟩) rest
    else .error ⟨.badMacroName word, place⟩
  | ⟨.word word, place⟩ :: ts =>
    (instruction stop word place ts).map fun (i, rest) => .item (.instruction i) rest
  | ⟨lexeme, place⟩ :: _ => .error ⟨.unexpected lexeme, place⟩

/-! ## Every step takes a token -/

theorem length_lt_of_someNames {stop : Location} {role : NameRole} {ts rest : List Token}
    {ns : List String} (h : someNames stop role ts = .ok (ns, rest)) :
    rest.length < ts.length := by
  fun_induction someNames stop role ts generalizing ns rest with
  | case1 ts name place afterName h₁ hn text found more h₂ ns' rest' h₃ ih =>
    have := ih h₃
    have := length_skipNewlines_le ts
    have := length_skipNewlines_le afterName
    simp_all only [List.length_cons]
    cases h
    omega
  | case2 => cases h
  | case3 ts name place afterName h₁ hn text found more h₂ =>
    have := length_skipNewlines_le ts
    have := length_skipNewlines_le afterName
    simp_all only [List.length_cons]
    cases h
    omega
  | case4 => cases h
  | case5 => cases h
  | case6 => cases h

theorem length_lt_of_names {stop : Location} {role : NameRole} {ts rest : List Token}
    {ns : List String} (h : names stop role ts = .ok (ns, rest)) :
    rest.length < ts.length := by
  have hs := length_skipNewlines_le ts
  unfold names at h
  split at h
  · rename_i heq
    cases h
    rw [heq, List.length_cons] at hs
    omega
  · have := length_lt_of_someNames h
    omega

theorem length_operand_le (ts : List Token) : (operand ts).2.length ≤ ts.length := by
  unfold operand
  split
  · simp
  · exact Nat.le_refl _

theorem length_le_of_instruction {stop place : Location} {word : String} {ts rest : List Token}
    {i : Instruction} (h : instruction stop word place ts = .ok (i, rest)) :
    rest.length ≤ ts.length := by
  unfold instruction at h
  split at h
  · cases h
    exact length_operand_le ts
  · split at h
    · split at h
      · rename_i ts'
        split at h
        · cases h
          exact Nat.le_succ_of_le (length_operand_le ts')
        · cases h
      · cases h
    · cases h

theorem length_lt_of_head {stop place : Location} {name : String} {ts rest : List Token}
    {hd : Head} (h : head stop name place ts = .ok (hd, rest)) :
    rest.length < ts.length := by
  unfold head at h
  split at h
  · cases h
  · rename_i ts₁ hn
    have h₁ := length_lt_of_names hn
    have h₂ := length_skipNewlines_le ts₁
    split at h
    · rename_i ts₂ he
      have h₃ := length_skipNewlines_le ts₂
      split at h
      · rename_i hb
        cases h
        simp only [he, hb, List.length_cons] at h₂ h₃
        omega
      · cases h
    · cases h

/-- A step other than the last one leaves fewer tokens. -/
theorem length_rest_lt_of_front {stop : Location} {ts : List Token} {f : Front}
    (h : front stop ts = .ok f) : f = .finish ∨ f.rest.length < ts.length := by
  have hs := length_skipNewlines_le ts
  unfold front at h
  split at h
  · cases h; exact .inl rfl
  all_goals right
  · rename_i heq
    cases h
    simp only [heq, List.length_cons] at hs
    simp only [Front.rest]
    omega
  · rename_i heq
    cases h
    simp only [heq, List.length_cons] at hs
    simp only [Front.rest]
    omega
  · rename_i word place _ _ ts' heq
    simp only [heq, List.length_cons] at hs
    split at h
    · cases hh : head stop word place ts' with
      | error e => simp [hh, Except.map] at h
      | ok r =>
        obtain ⟨hd, rest⟩ := r
        simp only [hh, Except.map, Except.ok.injEq] at h
        subst h
        have := length_lt_of_head hh
        simp only [Front.rest]
        omega
    · cases h
  · rename_i word place _ _ ts' heq
    simp only [heq, List.length_cons] at hs
    split at h
    · cases hn : names stop .argument ts' with
      | error e => simp [hn, Except.map] at h
      | ok r =>
        obtain ⟨ns, rest⟩ := r
        simp only [hn, Except.map, Except.ok.injEq] at h
        subst h
        have := length_lt_of_names hn
        simp only [Front.rest]
        omega
    · cases h
  · rename_i word place ts' _ _ heq
    simp only [heq, List.length_cons] at hs
    cases hi : instruction stop word place ts' with
    | error e => simp [hi, Except.map] at h
    | ok r =>
      obtain ⟨i, rest⟩ := r
      simp only [hi, Except.map, Except.ok.injEq] at h
      subst h
      have := length_le_of_instruction hi
      simp only [Front.rest]
      omega
  · cases h

/-! ## Whole programs -/

/-- A body that is still open: its head and the items before its declaration,
last one first. -/
structure Frame where
  head : Head
  before : List Item

/-- The declaration that a closing brace completes. -/
def Head.declare (h : Head) (body : List Item) : Item :=
  .declaration h.name h.parameters body (some h.location)

/-- A reading: the declarations that were completed on the way, and the program
or the reason to stop. -/
structure Reading where
  events : List Event
  outcome : Except Halt Program

/-- Put an event in front of a reading. -/
def Reading.push (event : Event) (r : Reading) : Reading :=
  { r with events := event :: r.events }

/-- Read on, with the bodies in `frames` open and the items of the innermost one
read so far, last one first. -/
def build (stop : Location) (frames : List Frame) (items : List Item) (ts : List Token) :
    Reading :=
  match _h : front stop ts with
  | .error e => ⟨[], .error e⟩
  | .ok .finish =>
    match frames with
    | [] => ⟨[], .ok items.reverse⟩
    | frame :: _ => ⟨[], .error ⟨.openBody frame.head.opened, stop⟩⟩
  | .ok (.close place rest) =>
    match frames with
    | [] => ⟨[], .error ⟨.strayBrace, place⟩⟩
    | ⟨h, before⟩ :: frames =>
      (build stop frames (h.declare items.reverse :: before) rest).push
        (.readMacro h.name h.parameters.length items.length)
  | .ok (.item item rest) => build stop frames (item :: items) rest
  | .ok (.opening h rest) => build stop (⟨h, items⟩ :: frames) [] rest
termination_by ts.length
decreasing_by
  all_goals
    rcases length_rest_lt_of_front _h with hf | hf
    · cases hf
    · exact hf

/-- Read a list of tokens. -/
def read (input : Input) : Reading := build input.stop [] [] input.tokens

/-! ## Bodies in bodies -/

/-- Whether reading comes to a body with `deepest` others open around it, and the
declarations that are completed before. -/
def overrun (deepest : Nat) (stop : Location) (frames : List Frame) (items : List Item)
    (ts : List Token) : Option (List Event) :=
  match _h : front stop ts with
  | .error _ => none
  | .ok .finish => none
  | .ok (.close _ rest) =>
    match frames with
    | [] => none
    | ⟨h, before⟩ :: frames =>
      (overrun deepest stop frames (h.declare items.reverse :: before) rest).map
        (.readMacro h.name h.parameters.length items.length :: ·)
  | .ok (.item item rest) => overrun deepest stop frames (item :: items) rest
  | .ok (.opening h rest) =>
    if frames.length < deepest then overrun deepest stop (⟨h, items⟩ :: frames) [] rest
    else some []
termination_by ts.length
decreasing_by
  all_goals
    rcases length_rest_lt_of_front _h with hf | hf
    · cases hf
    · exact hf

end MacroAsm.Reader
