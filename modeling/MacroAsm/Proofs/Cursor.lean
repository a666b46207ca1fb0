import MacroAsm.Proofs.PartReaders

/-!
# MacroAsm.Proofs.Cursor

Reading with a cursor that moves over the tokens one by one.  The list is taken as it is: the
end of input is a token like any other, there may be several of it and tokens behind it, and
where the list runs out the cursor makes one up.  Nothing but the readers themselves keeps the
cursor from moving on.

* `Cursor.current`, `Cursor.following` and `Cursor.advance` — all that a reader can do with it;
* `Cursor.read` — a program, or the reason why there is none, and where the cursor is then;
* `Onward` — the cursor has moved, and never over an end of input; so it does in every reader,
  which is why reading ends.
-/

namespace MacroAsm

/-- A place in a list of tokens: those that have been taken, last one first, and those that are
left. -/
structure Cursor where
  taken : List Token
  left : List Token

namespace Cursor

open Reader

variable (file : String)

/-- The token at the cursor.  Where none is left, that is the end of input, at the line and the
column of the last token. -/
def current (c : Cursor) : Token :=
  match c.left with
  | t :: _ => t
  | [] =>
    match c.taken with
    | t :: _ => ⟨.endOfInput, { t.location with file := file }⟩
    | [] => ⟨.endOfInput, .start file⟩

/-- The token behind the one at the cursor.  If there is none, it is the same one again. -/
def following (c : Cursor) : Token :=
  match c.left with
  | _ :: t :: _ => t
  | _ => c.current file

/-- Take the token at the cursor, whatever it is. -/
def advance (c : Cursor) : Cursor := ⟨c.current file :: c.taken, c.left.tail⟩

/-! ## Moving on -/

section

variable {file} {c d : Cursor}

@[simp] theorem taken_advance : (c.advance file).taken = c.current file :: c.taken := rfl

theorem left_eq_cons (h : (c.current file).lexeme ≠ .endOfInput) :
    c.left = c.current file :: (c.advance file).left := by
  obtain ⟨taken, left⟩ := c
  cases left with
  | nil => cases taken <;> exact absurd rfl h
  | cons t left => rfl

theorem length_advance_lt (h : (c.current file).lexeme ≠ .endOfInput) :
    (c.advance file).left.length < c.left.length := by
  rw [left_eq_cons h, List.length_cons]
  exact Nat.lt_succ_self _

/-- The cursor has moved on, over tokens none of which is an end of input. -/
inductive Onward (file : String) : Cursor → Cursor → Prop where
  | refl (c : Cursor) : Onward file c c
  | step {c d : Cursor} : (c.current file).lexeme ≠ .endOfInput →
      Onward file (c.advance file) d → Onward file c d

theorem Onward.trans {b : Cursor} (h : Onward file b c) (h' : Onward file c d) :
    Onward file b d := by
  induction h with
  | refl => exact h'
  | step hcurrent _ ih => exact .step hcurrent (ih h')

/-- The cursor behind a token that is no end of input. -/
theorem Onward.taking {lexeme : Lexeme} (h : Onward file c d)
    (hlexeme : (d.current file).lexeme = lexeme) (hne : lexeme ≠ .endOfInput) :
    Onward file c (d.advance file) :=
  h.trans (.step (by rw [hlexeme]; exact hne) (.refl _))

theorem Onward.length_le (h : Onward file c d) : d.left.length ≤ c.left.length := by
  induction h with
  | refl => exact Nat.le_refl _
  | step hcurrent _ ih =>
    have := length_advance_lt hcurrent
    omega

/-- What the cursor has moved over is what was left. -/
theorem Onward.append_eq (h : Onward file c d) :
    d.taken.reverse ++ d.left = c.taken.reverse ++ c.left := by
  induction h with
  | refl => rfl
  | step hcurrent _ ih =>
    rw [ih, left_eq_cons hcurrent, List.append_cons, taken_advance, List.reverse_cons]

/-- An end of input is never taken. -/
theorem Onward.ne_endOfInput (h : Onward file c d) (hc : ∀ t ∈ c.taken, t.lexeme ≠ .endOfInput) :
    ∀ t ∈ d.taken, t.lexeme ≠ .endOfInput := by
  induction h with
  | refl => exact hc
  | step hcurrent _ ih => exact ih (List.forall_mem_cons.mpr ⟨hcurrent, hc⟩)

/-- The token behind the cursor is the next one to come to, unless the list runs out. -/
theorem following_cases (h : (c.current file).lexeme ≠ .endOfInput) :
    c.following file = (c.advance file).current file ∨
      ((c.advance file).current file).lexeme = .endOfInput ∧
        c.following file = c.current file := by
  obtain ⟨taken, left⟩ := c
  match left with
  | [] => cases taken <;> exact absurd rfl h
  | [t] => exact .inr ⟨rfl, rfl⟩
  | t :: u :: left => exact .inl rfl

end

/-! ## Parts of items -/

/-- A reader with a cursor: it tells what it has read, or why it has stopped, and where the cursor
is then. -/
abbrev Walk (α : Type) : Type := Cursor → Except Halt α × Cursor

namespace Walk

variable {α β : Type}

/-- Read one part, then what depends on it. -/
def andThen (walk : Walk α) (next : α → Walk β) : Walk β := fun c =>
  match walk c with
  | (.ok a, c) => next a c
  | (.error e, c) => (.error e, c)

/-- Make something else of what has been read. -/
def map (f : α → β) (walk : Walk α) : Walk β := fun c => ((walk c).1.map f, (walk c).2)

/-- Stop at the token at the cursor. -/
def halt (fault : Lexeme → Fault) : Walk α := fun c =>
  (.error ⟨fault (c.current file).lexeme, (c.current file).location⟩, c)

/-- A reader that moves the cursor onward, also if it stops in the end. -/
def Steady (walk : Walk α) : Prop := ∀ c, Onward file c (walk c).2

variable {file} {walk : Walk α} {next : α → Walk β}

theorem Steady.andThen (h : walk.Steady file) (hnext : ∀ a, (next a).Steady file) :
    (walk.andThen next).Steady file := by
  intro c
  have hfirst := h c
  unfold Walk.andThen
  split
  · rename_i a d heq
    rw [heq] at hfirst
    exact hfirst.trans (hnext a d)
  · rename_i e d heq
    rw [heq] at hfirst
    exact hfirst

theorem Steady.map (f : α → β) (h : walk.Steady file) : (walk.map f).Steady file := h

end Walk

/-- The cursor behind any line ends. -/
def skipNewlines (c : Cursor) : Cursor :=
  if _h : (c.current file).lexeme = .newline then skipNewlines (c.advance file) else c
termination_by c.left.length
decreasing_by exact length_advance_lt (by simp [_h])

theorem onward_skipNewlines (c : Cursor) : Onward file c (c.skipNewlines file) := by
  fun_induction skipNewlines file c with
  | case1 c h ih => exact .step (by simp [h]) ih
  | case2 c h => exact .refl c

/-- What is behind a word, line ends aside. -/
theorem onward_behind_word {file name : String} {c : Cursor}
    (h : ((c.skipNewlines file).current file).lexeme = .word name) :
    Onward file c (((c.skipNewlines file).advance file).skipNewlines file) :=
  ((onward_skipNewlines file c).taking h Lexeme.noConfusion).trans (onward_skipNewlines file _)

/-- A given mark, line ends aside. -/
def expect (m : Mark) (fault : Lexeme → Fault) : Walk Location := fun c =>
  let c := c.skipNewlines file
  match (c.current file).lexeme with
  | .mark n _ =>
    if n = m then (.ok (c.current file).location, c.advance file) else Walk.halt file fault c
  | _ => Walk.halt file fault c

/-- At least one name, up to and including the closing parenthesis. -/
def someNames (role : NameRole) (c : Cursor) : Except Halt (List String) × Cursor :=
  let word := c.skipNewlines file
  match _h : (word.current file).lexeme with
  | .word name =>
    if Word.isName name then
      let separator := (word.advance file).skipNewlines file
      match _h' : (separator.current file).lexeme with
      | .mark .comma _ =>
        let more := someNames role (separator.advance file)
        (more.1.map (name :: ·), more.2)
      | .mark .closeParen _ => (.ok [name], separator.advance file)
      | _ => Walk.halt file (.noSeparator role) separator
    else (.error ⟨.badName role name, (word.current file).location⟩, word)
  | _ => Walk.halt file (.noName role) word
termination_by c.left.length
decreasing_by
  have hcomma : (separator.current file).lexeme ≠ .endOfInput := by simp [_h']
  exact Nat.lt_of_lt_of_le (length_advance_lt hcomma) (onward_behind_word _h).length_le

/-- The names in parentheses, once the opening one is taken. -/
def names (role : NameRole) : Walk (List String) := fun c =>
  let c := c.skipNewlines file
  match (c.current file).lexeme with
  | .mark .closeParen _ => (.ok [], c.advance file)
  | _ => someNames file role c

/-- An optional operand. -/
def operand : Walk (Option String) := fun c =>
  match (c.current file).lexeme with
  | .word text => (.ok (some text), c.advance file)
  | _ => (.ok none, c)

/-- An instruction, once its first word is taken. -/
def instruction (word : String) (place : Location) : Walk Instruction := fun c =>
  match Opcode.ofWord? word with
  | some opcode => Walk.map (fun o => ⟨opcode, none, o, some place⟩) (operand file) c
  | none =>
    if Word.isLabel word then
      match (c.current file).lexeme with
      | .word name =>
        match Opcode.ofWord? name with
        | some opcode =>
          Walk.map (fun o => ⟨opcode, some word, o, some place⟩) (operand file) (c.advance file)
        | none => (.error ⟨.badOpcode word name, (c.current file).location⟩, c)
      | _ => Walk.halt file (.noOpcode word) c
    else (.error ⟨.badLabel word, place⟩, c)

/-- The rest of the head of a declaration, once its opening parenthesis is taken. -/
def head (name : String) (place : Location) : Walk Head :=
  Walk.andThen (names file .parameter) fun parameters =>
    Walk.andThen (expect file .equals (.noEquals name)) fun _ =>
      Walk.andThen (expect file .openBrace (.noBody name)) fun opened c =>
        (.ok ⟨name, parameters, place, opened⟩, c)

/-! ## Parts are read steadily -/

section

variable {file} {role : NameRole} {place : Location} {c d : Cursor}

theorem steady_expect (m : Mark) (fault : Lexeme → Fault) : (expect file m fault).Steady file := by
  intro c
  have hskip := onward_skipNewlines file c
  unfold expect
  dsimp only
  split
  · rename_i n text hmark
    split
    · exact hskip.taking hmark Lexeme.noConfusion
    · exact hskip
  · exact hskip

theorem steady_someNames : Walk.Steady file (someNames file role) := by
  intro c
  fun_induction someNames file role c with
  | case1 c word name hword hname separator text hcomma more ih =>
    exact ((onward_behind_word hword).taking hcomma Lexeme.noConfusion).trans ih
  | case2 c word name hword hname separator text hclose =>
    exact (onward_behind_word hword).taking hclose Lexeme.noConfusion
  | case3 c word name hword => exact onward_behind_word hword
  | case4 c => exact onward_skipNewlines file c
  | case5 c => exact onward_skipNewlines file c

theorem steady_names : (names file role).Steady file := by
  intro c
  have hskip := onward_skipNewlines file c
  unfold names
  dsimp only
  split
  · rename_i text hclose
    exact hskip.taking hclose Lexeme.noConfusion
  · exact hskip.trans (steady_someNames _)

theorem steady_operand : (operand file).Steady file := by
  intro c
  unfold operand
  split
  · rename_i text hword
    exact (Onward.refl c).taking hword Lexeme.noConfusion
  · exact .refl c

theorem steady_instruction {word : String} : (instruction file word place).Steady file := by
  intro c
  unfold instruction
  split
  · exact steady_operand.map _ c
  · split
    · split
      · rename_i name hname
        split
        · exact ((Onward.refl c).taking hname Lexeme.noConfusion).trans (steady_operand.map _ _)
        · exact .refl c
      · exact .refl c
    · exact .refl c

theorem steady_head {name : String} : (head file name place).Steady file :=
  steady_names.andThen fun _ => (steady_expect _ _).andThen fun _ =>
    (steady_expect _ _).andThen fun _ => .refl

end

/-! ## Whole programs -/

/-- What an item starts with: itself, or the head of a declaration. -/
inductive Start where
  | item (item : Item)
  | opening (head : Head)

/-- Read the start of an item.  What a word starts depends on the token behind it. -/
def start : Walk Start := fun c =>
  let place := (c.current file).location
  match (c.current file).lexeme with
  | .comment text => (.ok (.item (.comment text (some place))), c.advance file)
  | .word word =>
    match (c.following file).lexeme with
    | .mark .openParen _ =>
      if Word.isName word then
        Walk.map .opening (head file word place) ((c.advance file).advance file)
      else (.error ⟨.badMacroName word, place⟩, c.advance file)
    | .mark .callOpen _ =>
      if Word.isName word then
        Walk.map (fun arguments => .item (.call ⟨word, arguments, some place⟩))
          (names file .argument) ((c.advance file).advance file)
      else (.error ⟨.badMacroName word, place⟩, c.advance file)
    | _ => Walk.map (fun i => .item (.instruction i)) (instruction file word place) (c.advance file)
  | lexeme => (.error ⟨.unexpected lexeme, place⟩, c)

section

variable {file} {c d : Cursor}

/-- A mark behind a word is the next token to come to. -/
theorem lexeme_current_advance {word text : String} {m : Mark}
    (hword : (c.current file).lexeme = .word word)
    (h : (c.following file).lexeme = .mark m text) :
    ((c.advance file).current file).lexeme = .mark m text := by
  have hne : (c.current file).lexeme ≠ .endOfInput := by simp [hword]
  rcases following_cases hne with hnext | ⟨-, hsame⟩
  · rw [← hnext, h]
  · -- where the list runs out the word itself is seen again, and it is no mark
    rw [hsame, hword] at h
    cases h

/-- A step that does not fail at once takes a token, and goes on from there. -/
theorem start_cases (c : Cursor) :
    (∃ e, start file c = (.error e, c)) ∨
      (c.current file).lexeme ≠ .endOfInput ∧ Onward file (c.advance file) (start file c).2 := by
  unfold start
  dsimp only
  split
  · rename_i text hcomment
    exact .inr ⟨by simp [hcomment], .refl _⟩
  · rename_i word hword
    refine .inr ⟨by simp [hword], ?_⟩
    split
    · rename_i text hparen
      have hnext := lexeme_current_advance hword hparen
      split
      · exact ((Onward.refl _).taking hnext Lexeme.noConfusion).trans (steady_head.map _ _)
      · exact .refl _
    · rename_i text hparen
      have hnext := lexeme_current_advance hword hparen
      split
      · exact ((Onward.refl _).taking hnext Lexeme.noConfusion).trans (steady_names.map _ _)
      · exact .refl _
    · exact steady_instruction.map _ _
  · exact .inl ⟨_, rfl⟩

theorem onward_of_start {r : Except Halt Start} (h : start file c = (r, d)) : Onward file c d := by
  rcases @start_cases file c with ⟨e, hstay⟩ | ⟨hne, honward⟩
  · rw [hstay] at h
    cases h
    exact .refl _
  · rw [h] at honward
    exact .step hne honward

/-- The start of an item is at least one token. -/
theorem length_lt_of_start {s : Start} (h : start file c = (.ok s, d)) :
    d.left.length < c.left.length := by
  rcases @start_cases file c with ⟨e, hstay⟩ | ⟨hne, honward⟩
  · rw [hstay] at h
    cases h
  · rw [h] at honward
    exact Nat.lt_of_le_of_lt honward.length_le (length_advance_lt hne)

end

/-- Read on, with the bodies in `frames` open and the items of the innermost one read so far, last
one first. -/
def build (frames : List Frame) (items : List Item) (c : Cursor) : Reading × Cursor :=
  let next := c.skipNewlines file
  let place := (next.current file).location
  match _h : (next.current file).lexeme with
  | .endOfInput =>
    match frames with
    | [] => (⟨[], .ok items.reverse⟩, next)
    | frame :: _ => (⟨[], .error ⟨.openBody frame.head.opened, place⟩⟩, next)
  | .mark .closeBrace _ =>
    match frames with
    | [] => (⟨[], .error ⟨.strayBrace, place⟩⟩, next)
    | ⟨hd, before⟩ :: frames =>
      let after := build frames (hd.declare items.reverse :: before) (next.advance file)
      (after.1.push (.readMacro hd.name hd.parameters.length items.length), after.2)
  | _ =>
    match _h' : start file next with
    | (.error e, d) => (⟨[], .error e⟩, d)
    | (.ok (.item item), d) => build frames (item :: items) d
    | (.ok (.opening hd), d) => build (⟨hd, items⟩ :: frames) [] d
termination_by c.left.length
decreasing_by
  all_goals have hskip := (onward_skipNewlines file c).length_le
  · have hbrace : (next.current file).lexeme ≠ .endOfInput := by simp [_h]
    exact Nat.lt_of_lt_of_le (length_advance_lt hbrace) hskip
  · exact Nat.lt_of_lt_of_le (length_lt_of_start _h') hskip
  · exact Nat.lt_of_lt_of_le (length_lt_of_start _h') hskip

/-- Read a list of tokens from its start. -/
def read (tokens : List Token) : Reading × Cursor := build file [] [] ⟨[], tokens⟩

/-- **Reading moves the cursor onward**, whether it succeeds or not. -/
theorem onward_build (frames : List Frame) (items : List Item) (c : Cursor) :
    Onward file c (build file frames items c).2 := by
  fun_induction build file frames items c with
  | case1 items c => exact onward_skipNewlines file c
  | case2 items c => exact onward_skipNewlines file c
  | case3 items c => exact onward_skipNewlines file c
  | case4 items c next text hbrace hd before frames ih =>
    rw [List.unattach_reverse, List.unattach_attach] at ih
    exact ((onward_skipNewlines file c).taking hbrace Lexeme.noConfusion).trans ih
  | case5 frames items c next e d hstart =>
    exact (onward_skipNewlines file c).trans (onward_of_start hstart)
  | case6 frames items c next item d hstart _ _ ih =>
    exact ((onward_skipNewlines file c).trans (onward_of_start hstart)).trans ih
  | case7 frames items c next hd d hstart _ _ ih =>
    exact ((onward_skipNewlines file c).trans (onward_of_start hstart)).trans ih

end Cursor

end MacroAsm
