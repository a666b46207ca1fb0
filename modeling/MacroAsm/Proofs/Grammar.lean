import MacroAsm.Item
import MacroAsm.Token

/-!
# MacroAsm.Proofs.Grammar

The grammar of programs, as a relation between tokens and the program that they
spell.  A rule names the tokens that it covers and puts them next to each other;
no rule says how they are found.

```text
program     = (newline* item)* newline*
item        = comment | declaration | call | instruction
instruction = [label] OPCODE [operand]    -- a mnemonic, in any case
call        = NAME "!(" names ")"
declaration = NAME "(" names ")" newline* "=" newline* "{" program "}"
names       = [NAME ("," NAME)*]          -- newlines anywhere between
```

Read like that, `HLT HLT` would be one instruction or two.  What follows decides:
a word with an opening parenthesis behind it starts no instruction, and an
instruction without operand has no word behind it.
-/

namespace MacroAsm

/-- A token is a given mark, whatever text it carries. -/
def Token.Is (t : Token) (m : Mark) : Prop := ∃ text, t.lexeme = .mark m text

theorem Token.Is.exists_eq {t : Token} {m : Mark} (h : t.Is m) :
    ∃ text place, t = ⟨.mark m text, place⟩ := by
  obtain ⟨lexeme, place⟩ := t
  obtain ⟨text, rfl⟩ := h
  exact ⟨text, place, rfl⟩

theorem Token.Is.unique {t : Token} {m n : Mark} (hm : t.Is m) (hn : t.Is n) : m = n := by
  obtain ⟨text, ht⟩ := hm
  obtain ⟨text', ht'⟩ := hn
  rw [ht] at ht'
  cases ht'
  rfl

theorem Token.Is.ne_newline {t : Token} {m : Mark} (h : t.Is m) : t.lexeme ≠ .newline := by
  obtain ⟨text, ht⟩ := h
  rw [ht]
  exact Lexeme.noConfusion

theorem Token.Is.ne_endOfInput {t : Token} {m : Mark} (h : t.Is m) : t.lexeme ≠ .endOfInput := by
  obtain ⟨text, ht⟩ := h
  rw [ht]
  exact Lexeme.noConfusion

namespace Grammar

/-! ## Words -/

/-- The letters of ASCII. -/
def Letter (c : Char) : Prop := ('A' ≤ c ∧ c ≤ 'Z') ∨ ('a' ≤ c ∧ c ≤ 'z')

/-- The digits of ASCII. -/
def Digit (c : Char) : Prop := '0' ≤ c ∧ c ≤ '9'

/-- Names of macros, parameters and arguments: a non-empty run of letters and
underscores. -/
def Name (word : String) : Prop := word ≠ "" ∧ ∀ c ∈ word.toList, Letter c ∨ c = '_'

/-- Labels: a non-empty run of letters, digits and underscores that does not spell an
operation. -/
def Label (word : String) : Prop :=
  (word ≠ "" ∧ ∀ c ∈ word.toList, Letter c ∨ Digit c ∨ c = '_') ∧
    ∀ op : Opcode, ¬ op.Spelled word

/-! ## Names in parentheses -/

/-- Nothing but line ends. -/
def Newlines (ts : List Token) : Prop := ∀ t ∈ ts, t.lexeme = .newline

/-- Tokens without the line ends among them. -/
def visible (ts : List Token) : List Token := ts.filter fun t => t.lexeme != .newline

/-- At least one name, with a single comma between any two. -/
inductive Listed : List Token → List String → Prop where
  | one {name : String} {place : Location} : Name name → Listed [⟨.word name, place⟩] [name]
  | more {name : String} {place : Location} {comma : Token} {ts : List Token}
      {names : List String} :
      Name name → comma.Is .comma → Listed ts names →
      Listed (⟨.word name, place⟩ :: comma :: ts) (name :: names)

/-- What stands between two parentheses: no names at all, or a list of names, with
line ends anywhere. -/
def Names (ts : List Token) (names : List String) : Prop :=
  (visible ts = [] ∧ names = []) ∨ Listed (visible ts) names

/-! ## Items -/

/-- An operand is a single word, and it may be missing. -/
inductive Operand : List Token → Option String → Prop where
  | missing : Operand [] none
  | word {text : String} {place : Location} : Operand [⟨.word text, place⟩] (some text)

/-- An instruction, which knows the place of its first word. -/
inductive Line : List Token → Instruction → Prop where
  | unlabelled {word : String} {place : Location} {opcode : Opcode} {ts : List Token}
      {operand : Option String} :
      opcode.Spelled word → Operand ts operand →
      Line (⟨.word word, place⟩ :: ts) ⟨opcode, none, operand, some place⟩
  | labelled {label word : String} {place found : Location} {opcode : Opcode}
      {ts : List Token} {operand : Option String} :
      Label label → opcode.Spelled word → Operand ts operand →
      Line (⟨.word label, place⟩ :: ⟨.word word, found⟩ :: ts)
        ⟨opcode, some label, operand, some place⟩

/-- The next token, if there is one, has a property. -/
def Next (P : Token → Prop) (ts : List Token) : Prop := ∀ t ∈ ts.head?, P t

/-- A token that makes neither a declaration nor a call of the word before it. -/
def NoParen (t : Token) : Prop := ¬ t.Is .openParen ∧ ¬ t.Is .callOpen

/-- A token that is no word. -/
def NoWord (t : Token) : Prop := ∀ text, t.lexeme ≠ .word text

/-- The items that hold no other ones: `Leaf ts item rest` if `ts` spells the item
when `rest` follows. -/
inductive Leaf : List Token → Item → List Token → Prop where
  | comment {text : String} {place : Location} {rest : List Token} :
      Leaf [⟨.comment text, place⟩] (.comment text (some place)) rest
  | call {name : String} {place : Location} {left right : Token} {inner rest : List Token}
      {arguments : List String} :
      Name name → left.Is .callOpen → Names inner arguments → right.Is .closeParen →
      Leaf (⟨.word name, place⟩ :: left :: (inner ++ [right]))
        (.call ⟨name, arguments, some place⟩) rest
  | instruction {ts rest : List Token} {i : Instruction} :
      Line ts i → Next NoParen (ts ++ rest).tail → (i.operand = none → Next NoWord rest) →
      Leaf ts (.instruction i) rest

/-- A declaration up to the brace that opens its body: `Opening ts name parameters
place`. -/
inductive Opening : List Token → String → List String → Location → Prop where
  | intro {name : String} {place : Location} {left right equals brace : Token}
      {inner before after : List Token} {parameters : List String} :
      Name name → left.Is .openParen → Names inner parameters → right.Is .closeParen →
      Newlines before → equals.Is .equals → Newlines after → brace.Is .openBrace →
      Opening
        (⟨.word name, place⟩ :: left ::
          (inner ++ right :: (before ++ equals :: (after ++ [brace]))))
        name parameters place

/-- Programs, and the bodies of declarations. -/
inductive Body : List Token → Program → Prop where
  | nil : Body [] []
  | newline {place : Location} {ts : List Token} {p : Program} :
      Body ts p → Body (⟨.newline, place⟩ :: ts) p
  | leaf {xs ts : List Token} {x : Item} {p : Program} :
      Leaf xs x ts → Body ts p → Body (xs ++ ts) (x :: p)
  | declaration {xs inner ts : List Token} {name : String} {parameters : List String}
      {place : Location} {brace : Token} {body p : Program} :
      Opening xs name parameters place → Body inner body → brace.Is .closeBrace → Body ts p →
      Body (xs ++ (inner ++ brace :: ts)) (.declaration name parameters body (some place) :: p)

/-- A list of tokens spells a program if those before the end of input do. -/
def Derives (tokens : List Token) (p : Program) : Prop :=
  Body (tokens.takeWhile fun t => t.lexeme != .endOfInput) p

/-- What follows the end of input is not read. -/
theorem derives_append_end {ts : List Token} {p : Program}
    (hts : ∀ t ∈ ts, t.lexeme ≠ .endOfInput) (stop : Location) (rest : List Token) :
    Derives (ts ++ ⟨.endOfInput, stop⟩ :: rest) p ↔ Body ts p := by
  have hbefore : ∀ t ∈ ts, (t.lexeme != .endOfInput) = true :=
    fun t ht => bne_iff_ne.mpr (hts t ht)
  rw [Derives, List.takeWhile_append_of_pos hbefore]
  simp

/-! ## What may follow -/

section

variable {P : Token → Prop} {xs ts rest : List Token} {x : Item}

theorem Next.append (h : Next P ts) (hrest : Next P rest) : Next P (ts ++ rest) := by
  cases ts with
  | nil => exact hrest
  | cons t ts => exact h

theorem Next.of_append (h : Next P (ts ++ rest)) : Next P ts := by
  cases ts with
  | nil => intro t ht; cases ht
  | cons t ts => exact h

/-- What comes next is one token at most. -/
theorem Next.cons {t : Token} (h : Next P (t :: ts)) (us : List Token) : Next P (t :: us) := h

theorem Next.imp {Q : Token → Prop} (hPQ : ∀ t, P t → Q t) (h : Next P ts) : Next Q ts :=
  fun t ht => hPQ t (h t ht)

/-- A body ends at a closing brace or where there are no tokens left. -/
def Ends (rest : List Token) : Prop := Next (·.Is .closeBrace) rest

theorem ends_nil : Ends [] := by
  intro t ht
  cases ht

theorem Ends.noParen (h : Ends rest) : Next NoParen rest := by
  refine Next.imp (fun t hbrace => ?_) h
  constructor
  · intro hopen
    cases hbrace.unique hopen
  · intro hcall
    cases hbrace.unique hcall

theorem Ends.noWord (h : Ends rest) : Next NoWord rest := by
  refine Next.imp (fun t ⟨text, ht⟩ word hw => ?_) h
  rw [ht] at hw
  cases hw

theorem noParen_of_word {t : Token} {word : String} (h : t.lexeme = .word word) : NoParen t := by
  constructor
  · rintro ⟨text, htext⟩
    rw [h] at htext
    cases htext
  · rintro ⟨text, htext⟩
    rw [h] at htext
    cases htext

theorem noParen_newline (place : Location) : NoParen ⟨.newline, place⟩ := by
  constructor
  · rintro ⟨text, htext⟩
    cases htext
  · rintro ⟨text, htext⟩
    cases htext

theorem noWord_newline (place : Location) : NoWord ⟨.newline, place⟩ := by
  intro text htext
  cases htext

/-- What comes next cannot be taken for a part of the item before it. -/
structure Apart (rest : List Token) : Prop where
  noParen : Next NoParen rest
  noWord : Next NoWord rest

theorem Ends.apart (h : Ends rest) : Apart rest := ⟨h.noParen, h.noWord⟩

theorem Apart.append (h : Apart ts) (hrest : Apart rest) : Apart (ts ++ rest) :=
  ⟨h.noParen.append hrest.noParen, h.noWord.append hrest.noWord⟩

theorem apart_newline (place : Location) (rest : List Token) :
    Apart (⟨.newline, place⟩ :: rest) := by
  constructor
  · rintro t ⟨⟩
    exact noParen_newline place
  · rintro t ⟨⟩
    exact noWord_newline place

/-- An instruction starts with a word. -/
theorem Line.exists_eq_cons {i : Instruction} (h : Line ts i) :
    ∃ word place us, ts = ⟨.word word, place⟩ :: us := by
  cases h <;> exact ⟨_, _, _, rfl⟩

/-- What stands apart does not change what an item is. -/
theorem Leaf.append (h : Leaf xs x ts) (hrest : Apart rest) : Leaf xs x (ts ++ rest) := by
  cases h with
  | comment => exact .comment
  | call hname hleft hnames hright => exact .call hname hleft hnames hright
  | instruction hline hparen hword =>
      refine .instruction hline ?_ fun hnone => (hword hnone).append hrest.noWord
      obtain ⟨word, place, us, rfl⟩ := hline.exists_eq_cons
      rw [← List.append_assoc]
      exact hparen.append hrest.noParen

/-- What an item is depends on the next token at most. -/
theorem Leaf.of_append (h : Leaf xs x (ts ++ rest)) : Leaf xs x ts := by
  cases h with
  | comment => exact .comment
  | call hname hleft hnames hright => exact .call hname hleft hnames hright
  | instruction hline hparen hword =>
      refine .instruction hline ?_ fun hnone => (hword hnone).of_append
      obtain ⟨word, place, us, rfl⟩ := hline.exists_eq_cons
      rw [← List.append_assoc] at hparen
      exact hparen.of_append

/-- What follows an item may be replaced behind the next token. -/
theorem Leaf.replace {us : List Token} (h : Leaf xs x (ts ++ rest)) (hus : ts = [] → Apart us) :
    Leaf xs x (ts ++ us) := by
  cases ts with
  | nil =>
      have hnil : Leaf xs x [] := h.of_append
      exact hnil.append (hus rfl)
  | cons t ts =>
      cases h with
      | comment => exact .comment
      | call hname hleft hnames hright => exact .call hname hleft hnames hright
      | instruction hline hparen hword =>
          refine .instruction hline ?_ fun hnone => (hword hnone).cons _
          obtain ⟨word, place, vs, rfl⟩ := hline.exists_eq_cons
          cases vs with
          | nil => exact hparen.cons _
          | cons v vs => exact hparen.cons _

/-- Line ends in front of a body are part of it. -/
theorem Body.newlines {p : Program} (hxs : Newlines xs) (h : Body ts p) : Body (xs ++ ts) p := by
  induction xs with
  | nil => exact h
  | cons t xs ih =>
      obtain ⟨lexeme, place⟩ := t
      obtain rfl : lexeme = .newline := hxs _ List.mem_cons_self
      exact .newline (ih fun t ht => hxs t (List.mem_cons_of_mem _ ht))

end

/-! ## What programs are made of -/

section

variable {ts : List Token}

/-- A token that is part of an item and neither opens nor closes a body. -/
structure Inner (t : Token) : Prop where
  ne_endOfInput : t.lexeme ≠ .endOfInput
  noOpen : ¬ t.Is .openBrace
  noClose : ¬ t.Is .closeBrace

theorem inner_of_is {t : Token} {m : Mark} (h : t.Is m) (hopen : m ≠ .openBrace)
    (hclose : m ≠ .closeBrace) : Inner t :=
  ⟨h.ne_endOfInput, fun hbrace => hopen (h.unique hbrace), fun hbrace => hclose (h.unique hbrace)⟩

theorem inner_word (text : String) (place : Location) : Inner ⟨.word text, place⟩ := by
  constructor <;> simp [Token.Is]

theorem inner_of_newline {t : Token} (h : t.lexeme = .newline) : Inner t := by
  constructor <;> simp [Token.Is, h]

theorem Newlines.inner (h : Newlines ts) : ∀ t ∈ ts, Inner t :=
  fun t ht => inner_of_newline (h t ht)

theorem Listed.inner {names : List String} (h : Listed ts names) : ∀ t ∈ ts, Inner t := by
  induction h with
  | one => simpa using inner_word _ _
  | more hname hcomma hlisted ih =>
    simp only [List.forall_mem_cons]
    exact ⟨inner_word _ _, inner_of_is hcomma (by decide) (by decide), ih⟩

theorem Names.inner {names : List String} (h : Names ts names) : ∀ t ∈ ts, Inner t := by
  intro t ht
  by_cases hnewline : t.lexeme = .newline
  · exact inner_of_newline hnewline
  · have hvisible : t ∈ visible ts := by simp [visible, ht, hnewline]
    rcases h with ⟨hnil, -⟩ | hlisted
    · simp [hnil] at hvisible
    · exact hlisted.inner t hvisible

theorem Operand.inner {operand : Option String} (h : Operand ts operand) : ∀ t ∈ ts, Inner t := by
  cases h with
  | missing => simp
  | word => simpa using inner_word _ _

theorem Line.inner {i : Instruction} (h : Line ts i) : ∀ t ∈ ts, Inner t := by
  cases h with
  | unlabelled _ hoperand => exact List.forall_mem_cons.mpr ⟨inner_word _ _, hoperand.inner⟩
  | labelled _ _ hoperand =>
    simp only [List.forall_mem_cons]
    exact ⟨inner_word _ _, inner_word _ _, hoperand.inner⟩

theorem Leaf.inner {x : Item} {rest : List Token} (h : Leaf ts x rest) : ∀ t ∈ ts, Inner t := by
  cases h with
  | comment => simpa using by constructor <;> simp [Token.Is]
  | call hname hleft hnames hright =>
    simp only [List.forall_mem_cons, List.forall_mem_append]
    exact ⟨inner_word _ _, inner_of_is hleft (by decide) (by decide), hnames.inner,
      inner_of_is hright (by decide) (by decide), by simp⟩
  | instruction hline => exact hline.inner

/-- A declaration up to its body ends with the brace that opens it, and has no other one. -/
theorem Opening.exists_inner {name : String} {parameters : List String} {place : Location}
    (h : Opening ts name parameters place) :
    ∃ xs brace, ts = xs ++ [brace] ∧ (∀ t ∈ xs, Inner t) ∧ brace.Is .openBrace := by
  obtain @⟨_, _, left, right, equals, brace, inner, before, after, _, hname, hleft, hnames, hright,
    hbefore, hequals, hafter, hbrace⟩ := h
  refine ⟨⟨.word name, place⟩ :: left :: (inner ++ right :: (before ++ equals :: after)), brace,
    by simp, ?_, hbrace⟩
  simp only [List.forall_mem_cons, List.forall_mem_append]
  exact ⟨inner_word _ _, inner_of_is hleft (by decide) (by decide), hnames.inner,
    inner_of_is hright (by decide) (by decide), hbefore.inner,
    inner_of_is hequals (by decide) (by decide), hafter.inner⟩

/-- The end of input is no part of a program. -/
theorem Body.ne_endOfInput {p : Program} (h : Body ts p) : ∀ t ∈ ts, t.lexeme ≠ .endOfInput := by
  induction h with
  | nil => simp
  | newline _ ih => simpa using ih
  | leaf hleaf _ ih =>
    exact List.forall_mem_append.mpr ⟨fun t ht => (hleaf.inner t ht).ne_endOfInput, ih⟩
  | declaration hopening _ hbrace _ ihbody ih =>
    obtain ⟨xs, opening, rfl, hxs, hopens⟩ := hopening.exists_inner
    simp only [List.forall_mem_cons, List.forall_mem_append]
    exact ⟨⟨fun t ht => (hxs t ht).ne_endOfInput, hopens.ne_endOfInput, by simp⟩, ihbody,
      hbrace.ne_endOfInput, ih⟩

end

end Grammar

end MacroAsm
