import MacroAsm.Text.Capitals

/-!
# MacroAsm.Opcode

The instruction set of the Little Man Computer.
-/

namespace MacroAsm

/-- An operation of the machine, or the data directive. -/
inductive Opcode where
  | add
  | sub
  | sto
  | lda
  | brz
  | brp
  | br
  | inp
  | out
  | hlt
  | dat
deriving DecidableEq, Repr

namespace Opcode

/-- Every operation, in the order in which they are listed to the user. -/
def all : List Opcode := [add, sub, sto, lda, brz, brp, br, inp, out, hlt, dat]

/-- The written name of an operation. -/
def mnemonic : Opcode → String
  | add => "ADD"
  | sub => "SUB"
  | sto => "STO"
  | lda => "LDA"
  | brz => "BRZ"
  | brp => "BRP"
  | br => "BR"
  | inp => "IN"
  | out => "OUT"
  | hlt => "HLT"
  | dat => "DAT"

/-- The operation that a word names, in any case. -/
def ofWord? (word : String) : Option Opcode :=
  let name := Text.capitalize word
  all.find? fun op => op.mnemonic == name

/-- The reminder of what may stand in opcode position. -/
def reminder : String :=
  "valid opcodes are " ++ ", ".intercalate (all.map mnemonic)

theorem mem_all (op : Opcode) : op ∈ all := by
  cases op <;> decide

/-! ## Spellings -/

/-- What may be written for capital letters: each of them in either case, the dotless i for
an `I`, the long s for an `S`, and their ligature for `S` and `T`. -/
inductive Spells : List Char → List Char → Prop where
  | nil : Spells [] []
  | letter {c letter : Char} {cs letters : List Char} :
      c.toUpper = letter → Spells cs letters → Spells (c :: cs) (letter :: letters)
  | dotlessI {cs letters : List Char} :
      Spells cs letters → Spells ('ı' :: cs) ('I' :: letters)
  | longS {cs letters : List Char} :
      Spells cs letters → Spells ('ſ' :: cs) ('S' :: letters)
  | ligature {c : Char} {cs letters : List Char} :
      c = 'ﬅ' ∨ c = 'ﬆ' → Spells cs letters → Spells (c :: cs) ('S' :: 'T' :: letters)

/-- The word is the mnemonic of the operation, in any case. -/
def Spelled (op : Opcode) (word : String) : Prop := Spells word.toList op.mnemonic.toList

/-- Capital letters that are no other character's upper-case form but as `Spells` says. -/
structure Plain (letters : List Char) : Prop where
  upper : ∀ c ∈ letters, c.isUpper = true
  noF : 'F' ∉ letters
  noSS : ¬ ['S', 'S'] <:+: letters

theorem plain_mnemonic (op : Opcode) : Plain op.mnemonic.toList := by
  cases op <;> exact ⟨List.all_eq_true.mp (by decide), by decide, by decide⟩

theorem Plain.of_append (before : List Char) {letters : List Char}
    (h : Plain (before ++ letters)) : Plain letters where
  upper c hc := h.upper c (List.mem_append_right before hc)
  noF hF := h.noF (List.mem_append_right before hF)
  noSS hSS := h.noSS (hSS.trans (List.suffix_append before letters).isInfix)

theorem spells_of_capitals {cs letters : List Char} (hplain : Plain letters)
    (h : cs.flatMap Text.capitals = letters) : Spells cs letters := by
  induction cs generalizing letters with
  | nil => subst h; exact .nil
  | cons c cs ih =>
    rw [List.flatMap_cons] at h
    subst h
    have hrest := ih (hplain.of_append _) rfl
    revert hplain
    fun_cases Text.capitals c with
    | case1 => exact fun _ => .dotlessI hrest
    | case2 => exact fun _ => .longS hrest
    | case3 => exact fun hplain => (hplain.noSS ⟨[], _, rfl⟩).elim
    | case9 => exact fun _ => .ligature (.inl rfl) hrest
    | case10 => exact fun _ => .ligature (.inr rfl) hrest
    | case11 => exact fun _ => .letter rfl hrest
    | _ => exact fun hplain => (hplain.noF (by simp)).elim

/-- An upper-case letter is the capital of itself and of its lower-case letter. -/
theorem capitals_of_upper {c : Char} (h : c.toUpper.isUpper = true) :
    Text.capitals c = [c.toUpper] := by
  fun_cases Text.capitals c with
  | case11 => rfl
  | _ => revert h; decide

theorem capitals_of_spells {cs letters : List Char} (hplain : Plain letters)
    (h : Spells cs letters) : cs.flatMap Text.capitals = letters := by
  induction h with
  | nil => rfl
  | @letter c letter cs letters hc _ ih =>
    subst hc
    rw [List.flatMap_cons, capitals_of_upper (hplain.upper _ List.mem_cons_self),
      ih (hplain.of_append [c.toUpper])]
    rfl
  | dotlessI _ ih => exact congrArg ('I' :: ·) (ih (hplain.of_append ['I']))
  | longS _ ih => exact congrArg ('S' :: ·) (ih (hplain.of_append ['S']))
  | ligature hc _ ih =>
    have hrest := ih (hplain.of_append ['S', 'T'])
    rcases hc with rfl | rfl <;> exact congrArg (['S', 'T'] ++ ·) hrest

theorem ofWord?_eq_some_iff_capitalize {word : String} {op : Opcode} :
    ofWord? word = some op ↔ Text.capitalize word = op.mnemonic := by
  constructor
  · intro h
    rw [ofWord?] at h
    have hfound := List.find?_some h
    exact (beq_iff_eq.mp hfound).symm
  · intro h
    rw [ofWord?, h]
    cases op <;> decide

/-- **The words for an operation** are the spellings of its mnemonic. -/
theorem ofWord?_eq_some_iff {word : String} {op : Opcode} :
    ofWord? word = some op ↔ op.Spelled word := by
  have hlist : Text.capitalize word = op.mnemonic ↔
      word.toList.flatMap Text.capitals = op.mnemonic.toList := by
    rw [← String.toList_inj, Text.capitalize, String.toList_ofList]
  rw [ofWord?_eq_some_iff_capitalize, hlist]
  exact ⟨spells_of_capitals op.plain_mnemonic, capitals_of_spells op.plain_mnemonic⟩

theorem ofWord?_eq_none_iff {word : String} : ofWord? word = none ↔ ∀ op, ¬ Spelled op word := by
  simp only [Option.eq_none_iff_forall_ne_some, ne_eq, ofWord?_eq_some_iff]

theorem spells_iff_of_ascii {cs letters : List Char} (h : ∀ c ∈ cs, c.val < 128) :
    Spells cs letters ↔ cs.map Char.toUpper = letters := by
  constructor
  · intro hspells
    induction hspells with
    | nil => rfl
    | letter hc _ ih =>
      rw [List.map_cons, hc, ih fun c hc => h c (List.mem_cons_of_mem _ hc)]
    | dotlessI => exact absurd (h _ List.mem_cons_self) (by decide)
    | longS => exact absurd (h _ List.mem_cons_self) (by decide)
    | ligature hc => rcases hc with rfl | rfl <;> exact absurd (h _ List.mem_cons_self) (by decide)
  · rintro rfl
    clear h
    induction cs with
    | nil => exact .nil
    | cons c cs ih => exact .letter rfl ih

/-- In ASCII a word can differ from the mnemonic in the case of its letters only. -/
theorem ofWord?_eq_some_iff_of_ascii {word : String} (h : ∀ c ∈ word.toList, c.val < 128)
    {op : Opcode} :
    ofWord? word = some op ↔ word.toList.map Char.toUpper = op.mnemonic.toList := by
  rw [ofWord?_eq_some_iff, Spelled, spells_iff_of_ascii h]

end Opcode

end MacroAsm
