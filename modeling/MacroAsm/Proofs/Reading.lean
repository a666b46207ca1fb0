import MacroAsm.Program
import MacroAsm.Proofs.Grammar

/-!
# MacroAsm.Proofs.Reading

Reading is exact: the reader accepts what the grammar derives and nothing else.

* `names_eq_ok_iff` and `instruction_eq_ok_iff` — the parts of items;
* `Shape.of_front` — what one step has read;
* `closes_of_build` — what the whole of a reading has read: the bodies that are
  still open say what is left to find (`Closes`);
* `build_append` — what the grammar derives is read to its end, whatever is open;
* `parse_eq_ok_iff_derives` — from source text to program.
-/

namespace MacroAsm.Reader

open Grammar

variable {stop : Location} {ts rest : List Token}

/-! ## Words -/

theorem isUpper_iff {c : Char} : c.isUpper = true ↔ 'A' ≤ c ∧ c ≤ 'Z' := decide_eq_true_iff

theorem isLower_iff {c : Char} : c.isLower = true ↔ 'a' ≤ c ∧ c ≤ 'z' :=
  Bool.and_eq_true_iff.trans (and_congr decide_eq_true_iff decide_eq_true_iff)

theorem isAlpha_iff {c : Char} : c.isAlpha = true ↔ Letter c :=
  Bool.or_eq_true_iff.trans (or_congr isUpper_iff isLower_iff)

theorem isDigit_iff {c : Char} : c.isDigit = true ↔ Digit c := by
  simp [Char.isDigit, Digit, Char.le_def]

theorem isName_iff {word : String} : Word.isName word = true ↔ Name word := by
  simp [Word.isName, Name, Word.isNameChar, isAlpha_iff]

theorem isLabel_iff {word : String} (h : Opcode.ofWord? word = none) :
    Word.isLabel word = true ↔ Label word := by
  have hunspelled := Opcode.ofWord?_eq_none_iff.mp h
  simp [Word.isLabel, Label, Word.isLabelChar, Char.isAlphanum, isAlpha_iff, isDigit_iff,
    hunspelled, or_assoc]

/-! ## Line ends -/

theorem skipNewlines_append {ws : List Token} (h : Newlines ws) (ts : List Token) :
    skipNewlines (ws ++ ts) = skipNewlines ts := by
  induction ws with
  | nil => rfl
  | cons t ws ih =>
      obtain ⟨lexeme, place⟩ := t
      obtain rfl : lexeme = .newline := h _ List.mem_cons_self
      exact ih fun t ht => h t (List.mem_cons_of_mem _ ht)

/-- Line ends in front of another token are skipped, and nothing else is. -/
theorem skipNewlines_append_cons {ws : List Token} (hws : Newlines ws) {t : Token}
    (ht : t.lexeme ≠ .newline) (ts : List Token) : skipNewlines (ws ++ t :: ts) = t :: ts := by
  obtain ⟨lexeme, place⟩ := t
  rw [skipNewlines_append hws, skipNewlines]
  rintro place' ts' heq
  cases heq
  exact ht rfl

theorem skipNewlines_cons {t : Token} (h : t.lexeme ≠ .newline) (ts : List Token) :
    skipNewlines (t :: ts) = t :: ts := by
  have hnil : Newlines [] := by simp [Newlines]
  exact skipNewlines_append_cons hnil h ts

theorem ne_newline_of_skipNewlines {t : Token} (h : skipNewlines ts = t :: rest) :
    t.lexeme ≠ .newline := by
  fun_induction skipNewlines ts with
  | case1 place ts ih => exact ih h
  | case2 ts hts =>
      subst h
      intro hnewline
      exact hts t.location rest (by rw [← hnewline])

theorem exists_newlines_append (ts : List Token) :
    ∃ ws, Newlines ws ∧ ts = ws ++ skipNewlines ts := by
  fun_induction skipNewlines ts with
  | case1 place ts ih =>
      obtain ⟨ws, hws, hts⟩ := ih
      refine ⟨⟨.newline, place⟩ :: ws, ?_, by rw [List.cons_append, ← hts]⟩
      intro t ht
      rcases List.mem_cons.mp ht with rfl | ht
      · rfl
      · exact hws t ht
  | case2 ts _ => exact ⟨[], by simp [Newlines], rfl⟩

theorem visible_append_newlines {ws : List Token} (h : Newlines ws) (ts : List Token) :
    visible (ws ++ ts) = visible ts := by
  rw [visible, List.filter_append, List.filter_eq_nil_iff.mpr, List.nil_append, visible]
  intro t ht
  simp [h t ht]

theorem visible_cons_word (name : String) (place : Location) (ts : List Token) :
    visible (⟨.word name, place⟩ :: ts) = ⟨.word name, place⟩ :: visible ts := rfl

theorem visible_cons_mark (m : Mark) (text : String) (place : Location) (ts : List Token) :
    visible (⟨.mark m text, place⟩ :: ts) = ⟨.mark m text, place⟩ :: visible ts := rfl

/-- The first token that is no line end, and what stands before and after it. -/
theorem exists_of_visible_eq_cons {ts vs : List Token} {t : Token} (h : visible ts = t :: vs) :
    ∃ ws us, ts = ws ++ t :: us ∧ Newlines ws ∧ visible us = vs := by
  obtain ⟨ws, us, rfl, hws, _, hus⟩ := List.filter_eq_cons_iff.mp h
  exact ⟨ws, us, rfl, by simpa [Newlines] using hws, hus⟩

theorem visible_eq_nil_iff {ts : List Token} : visible ts = [] ↔ Newlines ts := by
  simp [visible, Newlines, List.filter_eq_nil_iff]

/-! ## Names -/

/-- What has been read as names is a list of names. -/
theorem listed_of_someNames {role : NameRole} {ns : List String}
    (h : someNames stop role ts = .ok (ns, rest)) :
    ∃ inner right, ts = inner ++ right :: rest ∧ right.Is .closeParen ∧
      Listed (visible inner) ns := by
  fun_induction someNames stop role ts generalizing ns rest with
  | case1 ts name place afterName hskip hname text found more hcomma ns' rest' hmore ih =>
      cases h
      obtain ⟨inner, right, rfl, hright, hlisted⟩ := ih hmore
      obtain ⟨ws, hws, hts⟩ := exists_newlines_append ts
      obtain ⟨vs, hvs, hafter⟩ := exists_newlines_append afterName
      rw [hskip, hafter, hcomma] at hts
      refine ⟨ws ++ ⟨.word name, place⟩ :: (vs ++ ⟨.mark .comma text, found⟩ :: inner), right, ?_,
        hright, ?_⟩
      · rw [hts]
        simp
      · rw [visible_append_newlines hws, visible_cons_word, visible_append_newlines hvs,
          visible_cons_mark]
        exact .more (isName_iff.mp hname) ⟨text, rfl⟩ hlisted
  | case2 => cases h
  | case3 ts name place afterName hskip hname text found more hclose =>
      cases h
      obtain ⟨ws, hws, hts⟩ := exists_newlines_append ts
      obtain ⟨vs, hvs, hafter⟩ := exists_newlines_append afterName
      rw [hskip, hafter, hclose] at hts
      refine ⟨ws ++ ⟨.word name, place⟩ :: vs, ⟨.mark .closeParen text, found⟩, ?_, ⟨text, rfl⟩, ?_⟩
      · rw [hts]
        simp
      · rw [visible_append_newlines hws, visible_cons_word, ← List.append_nil vs,
          visible_append_newlines hvs]
        exact .one (isName_iff.mp hname)
  | case4 => cases h
  | case5 => cases h
  | case6 => cases h

/-- A name with a parenthesis behind it is the last one. -/
theorem someNames_closed {role : NameRole} {name text : String} {place found : Location}
    {us : List Token} (hname : Name name) (hts : skipNewlines ts = ⟨.word name, place⟩ :: us)
    (hus : skipNewlines us = ⟨.mark .closeParen text, found⟩ :: rest) :
    someNames stop role ts = .ok ([name], rest) := by
  have h := isName_iff.mpr hname
  rw [someNames]
  grind

/-- A name with a comma behind it is followed by others. -/
theorem someNames_comma {role : NameRole} {name text : String} {place found : Location}
    {us more : List Token} {ns : List String} (hname : Name name)
    (hts : skipNewlines ts = ⟨.word name, place⟩ :: us)
    (hus : skipNewlines us = ⟨.mark .comma text, found⟩ :: more)
    (hmore : someNames stop role more = .ok (ns, rest)) :
    someNames stop role ts = .ok (name :: ns, rest) := by
  have h := isName_iff.mpr hname
  rw [someNames]
  grind

/-- A list of names is read up to the parenthesis behind it. -/
theorem someNames_of_listed {role : NameRole} {ns : List String} {inner : List Token}
    {right : Token} (hright : right.Is .closeParen) (h : Listed (visible inner) ns) :
    someNames stop role (inner ++ right :: rest) = .ok (ns, rest) := by
  generalize hvs : visible inner = vs at h
  induction h generalizing inner with
  | @one name place hname =>
      obtain ⟨ws, us, rfl, hws, hus⟩ := exists_of_visible_eq_cons hvs
      rw [List.append_assoc, List.cons_append]
      have hword := skipNewlines_append_cons (t := ⟨.word name, place⟩) hws nofun
        (us ++ right :: rest)
      have hclose := skipNewlines_append_cons (visible_eq_nil_iff.mp hus) hright.ne_newline rest
      obtain ⟨text, found, rfl⟩ := hright.exists_eq
      exact someNames_closed hname hword hclose
  | @more name place comma vs ns hname hcomma _ ih =>
      obtain ⟨ws, us, rfl, hws, hus⟩ := exists_of_visible_eq_cons hvs
      obtain ⟨ws', us', rfl, hws', hus'⟩ := exists_of_visible_eq_cons hus
      rw [List.append_assoc, List.cons_append, List.append_assoc, List.cons_append]
      have hword := skipNewlines_append_cons (t := ⟨.word name, place⟩) hws nofun
        (ws' ++ comma :: (us' ++ right :: rest))
      have hnext := skipNewlines_append_cons hws' hcomma.ne_newline (us' ++ right :: rest)
      obtain ⟨text, found, rfl⟩ := hcomma.exists_eq
      exact someNames_comma hname hword hnext (ih hus')

theorem Listed.exists_eq_cons {ts : List Token} {ns : List String} (h : Listed ts ns) :
    ∃ name place us, ts = ⟨.word name, place⟩ :: us := by
  cases h <;> exact ⟨_, _, _, rfl⟩

/-- **Names are read exactly**: up to the first parenthesis that closes them. -/
theorem names_eq_ok_iff {role : NameRole} {ns : List String} :
    names stop role ts = .ok (ns, rest) ↔
      ∃ inner right, ts = inner ++ right :: rest ∧ right.Is .closeParen ∧ Names inner ns := by
  constructor
  · intro h
    obtain ⟨ws, hws, hts⟩ := exists_newlines_append ts
    unfold names at h
    split at h
    · rename_i text place rest' hclose
      cases h
      rw [hclose] at hts
      exact ⟨ws, _, hts, ⟨text, rfl⟩, .inl ⟨visible_eq_nil_iff.mpr hws, rfl⟩⟩
    · obtain ⟨inner, right, hinner, hright, hlisted⟩ := listed_of_someNames h
      rw [hinner] at hts
      refine ⟨ws ++ inner, right, by simpa using hts, hright, .inr ?_⟩
      rw [visible_append_newlines hws]
      exact hlisted
  · rintro ⟨inner, right, rfl, hright, ⟨hinner, rfl⟩ | hlisted⟩
    · rw [names, skipNewlines_append_cons (visible_eq_nil_iff.mp hinner) hright.ne_newline]
      obtain ⟨text, place, rfl⟩ := hright.exists_eq
      rfl
    · obtain ⟨name, place, vs, hvs⟩ := Listed.exists_eq_cons hlisted
      obtain ⟨ws, us, rfl, hws, _⟩ := exists_of_visible_eq_cons hvs
      rw [visible_append_newlines hws] at hlisted
      rw [names, List.append_assoc, List.cons_append,
        skipNewlines_append_cons (t := ⟨.word name, place⟩) hws nofun]
      exact someNames_of_listed hright hlisted

/-! ## Instructions -/

theorem next_noWord_iff {ts : List Token} :
    Next NoWord ts ↔ ∀ text place more, ts ≠ ⟨.word text, place⟩ :: more := by
  constructor
  · rintro h text place more rfl
    exact h _ rfl text rfl
  · intro h t ht text hword
    obtain ⟨more, rfl⟩ := List.head?_eq_some_iff.mp ht
    obtain ⟨lexeme, place⟩ := t
    exact h text place more (by rw [← hword])

/-- The next word, if there is one, is the operand. -/
theorem operand_eq_iff {o : Option String} :
    operand ts = (o, rest) ↔
      ∃ xs, ts = xs ++ rest ∧ Operand xs o ∧ (o = none → Next NoWord rest) := by
  constructor
  · intro h
    unfold operand at h
    split at h
    · cases h
      exact ⟨_, rfl, .word, nofun⟩
    · rename_i hword
      cases h
      exact ⟨[], rfl, .missing, fun _ => next_noWord_iff.mpr hword⟩
  · rintro ⟨xs, rfl, hxs, hnext⟩
    cases hxs with
    | missing => rw [List.nil_append, operand.eq_2 _ (next_noWord_iff.mp (hnext rfl))]
    | word => rfl

/-- **Instructions are read exactly**, and as far as they go. -/
theorem instruction_eq_ok_iff {word : String} {place : Location} {i : Instruction} :
    instruction stop word place ts = .ok (i, rest) ↔
      ∃ xs, ⟨.word word, place⟩ :: ts = xs ++ rest ∧ Line xs i ∧
        (i.operand = none → Next NoWord rest) := by
  constructor
  · intro h
    unfold instruction at h
    split at h
    · rename_i opcode hopcode
      cases h
      obtain ⟨xs, hts, hxs, hnext⟩ := operand_eq_iff.mp (Eq.refl (operand ts))
      exact ⟨⟨.word word, place⟩ :: xs, by rw [List.cons_append, ← hts],
        .unlabelled (Opcode.ofWord?_eq_some_iff.mp hopcode) hxs, hnext⟩
    · rename_i hnone
      split at h
      · rename_i hlabel
        split at h
        · rename_i name found ts
          split at h
          · rename_i opcode hopcode
            cases h
            obtain ⟨xs, hts, hxs, hnext⟩ := operand_eq_iff.mp (Eq.refl (operand ts))
            exact ⟨⟨.word word, place⟩ :: ⟨.word name, found⟩ :: xs,
              by rw [List.cons_append, List.cons_append, ← hts],
              .labelled ((isLabel_iff hnone).mp hlabel) (Opcode.ofWord?_eq_some_iff.mp hopcode) hxs,
              hnext⟩
          · cases h
        · cases h
      · cases h
  · rintro ⟨xs, hts, hline, hnext⟩
    cases hline with
    | @unlabelled _ _ opcode us o hopcode hus =>
        rw [List.cons_append] at hts
        cases hts
        have ho := operand_eq_iff.mpr ⟨us, rfl, hus, hnext⟩
        simp only [instruction, Opcode.ofWord?_eq_some_iff.mpr hopcode, ho]
    | @labelled _ name _ found opcode us o hlabel hopcode hus =>
        rw [List.cons_append, List.cons_append] at hts
        cases hts
        have ho := operand_eq_iff.mpr ⟨us, rfl, hus, hnext⟩
        have hnone := Opcode.ofWord?_eq_none_iff.mpr hlabel.2
        simp only [instruction, hnone, (isLabel_iff hnone).mpr hlabel, if_true,
          Opcode.ofWord?_eq_some_iff.mpr hopcode, ho]

/-! ## One step -/

/-- **Heads are read exactly**: a declaration up to the brace that opens its body. -/
theorem head_eq_ok_iff {name : String} {place : Location} {hd : Head} :
    head stop name place ts = .ok (hd, rest) ↔
      ∃ inner right before equals after brace parameters,
        ts = inner ++ right :: (before ++ equals :: (after ++ brace :: rest)) ∧
        Names inner parameters ∧ right.Is .closeParen ∧ Newlines before ∧ equals.Is .equals ∧
        Newlines after ∧ brace.Is .openBrace ∧ hd = ⟨name, parameters, place, brace.location⟩ := by
  constructor
  · intro h
    unfold head at h
    split at h
    · cases h
    · rename_i parameters ts' hnames
      obtain ⟨inner, right, rfl, hright, hinner⟩ := names_eq_ok_iff.mp hnames
      obtain ⟨before, hbefore, hts'⟩ := exists_newlines_append ts'
      split at h
      · rename_i text found ts'' hequals
        obtain ⟨after, hafter, hts''⟩ := exists_newlines_append ts''
        split at h
        · rename_i text' opened rest' hbrace
          cases h
          rw [hequals, hts'', hbrace] at hts'
          exact ⟨inner, right, before, _, after, _, parameters, by rw [hts'], hinner, hright,
            hbefore, ⟨text, rfl⟩, hafter, ⟨text', rfl⟩, rfl⟩
        · cases h
      · cases h
  · rintro ⟨inner, right, before, equals, after, brace, parameters, rfl, hinner, hright, hbefore,
      hequals, hafter, hbrace, rfl⟩
    have hnames : names stop .parameter
        (inner ++ right :: (before ++ equals :: (after ++ brace :: rest))) =
          .ok (parameters, before ++ equals :: (after ++ brace :: rest)) :=
      names_eq_ok_iff.mpr ⟨inner, right, rfl, hright, hinner⟩
    have hskip := skipNewlines_append_cons hbefore hequals.ne_newline (after ++ brace :: rest)
    have hskip' := skipNewlines_append_cons hafter hbrace.ne_newline rest
    obtain ⟨text, found, rfl⟩ := hequals.exists_eq
    obtain ⟨text', found', rfl⟩ := hbrace.exists_eq
    simp only [head, hnames, hskip, hskip']

theorem map_eq_ok_iff {α β : Type} {x : Except Halt α} {f : α → β} {b : β} :
    x.map f = .ok b ↔ ∃ a, x = .ok a ∧ f a = b := by
  cases x with
  | error e => simp [Except.map]
  | ok a => simp [Except.map]

theorem map_eq_error_iff {α β : Type} {x : Except Halt α} {f : α → β} {e : Halt} :
    x.map f = .error e ↔ x = .error e := by
  cases x with
  | error e' => simp [Except.map]
  | ok a => simp [Except.map]

/-- What one step has read. -/
inductive Shape : List Token → Front → Prop where
  | finish {ws : List Token} : Newlines ws → Shape ws .finish
  | close {ws rest : List Token} {brace : Token} :
      Newlines ws → brace.Is .closeBrace → Shape (ws ++ brace :: rest) (.close brace.location rest)
  | item {ws xs rest : List Token} {x : Item} :
      Newlines ws → Leaf xs x rest → Shape (ws ++ (xs ++ rest)) (.item x rest)
  | opening {ws xs rest : List Token} {h : Head} :
      Newlines ws → Opening xs h.name h.parameters h.location →
      Shape (ws ++ (xs ++ rest)) (.opening h rest)

theorem next_noParen {ts : List Token}
    (hopen : ∀ text place more, ts ≠ ⟨.mark .openParen text, place⟩ :: more)
    (hcall : ∀ text place more, ts ≠ ⟨.mark .callOpen text, place⟩ :: more) :
    Next NoParen ts := by
  intro t ht
  obtain ⟨more, rfl⟩ := List.head?_eq_some_iff.mp ht
  constructor
  · intro h
    obtain ⟨text, place, rfl⟩ := h.exists_eq
    exact hopen text place more rfl
  · intro h
    obtain ⟨text, place, rfl⟩ := h.exists_eq
    exact hcall text place more rfl

/-- A word that makes neither a declaration nor a call starts an instruction. -/
theorem front_word {word : String} {place : Location}
    (hts : skipNewlines ts = ⟨.word word, place⟩ :: rest) (hnext : Next NoParen rest) :
    front stop ts =
      (instruction stop word place rest).map fun (i, rest) => .item (.instruction i) rest := by
  unfold front
  rw [hts]
  cases rest with
  | nil => rfl
  | cons t rest =>
      obtain ⟨hdeclaration, hcall⟩ := hnext t rfl
      obtain ⟨lexeme, found⟩ := t
      cases lexeme with
      | mark m text =>
          cases m with
          | openParen => exact absurd ⟨text, rfl⟩ hdeclaration
          | callOpen => exact absurd ⟨text, rfl⟩ hcall
          | _ => rfl
      | _ => rfl

/-- Nothing starts with any other token. -/
theorem front_unexpected {lexeme : Lexeme} {place : Location}
    (hts : skipNewlines ts = ⟨lexeme, place⟩ :: rest)
    (hclose : ∀ text, lexeme ≠ .mark .closeBrace text) (hcomment : ∀ text, lexeme ≠ .comment text)
    (hword : ∀ text, lexeme ≠ .word text) :
    front stop ts = .error ⟨.unexpected lexeme, place⟩ := by
  unfold front
  rw [hts]
  cases lexeme with
  | word text => exact absurd rfl (hword text)
  | comment text => exact absurd rfl (hcomment text)
  | mark m text =>
      cases m with
      | closeBrace => exact absurd rfl (hclose text)
      | _ => rfl
  | _ => rfl

/-- The head of a declaration has been read. -/
theorem Shape.of_head {ws : List Token} {word text : String} {place found : Location} {hd : Head}
    (hws : Newlines ws) (hname : Name word) (h : head stop word place ts = .ok (hd, rest)) :
    Shape (ws ++ ⟨.word word, place⟩ :: ⟨.mark .openParen text, found⟩ :: ts)
      (.opening hd rest) := by
  obtain ⟨inner, right, before, equals, after, brace, parameters, rfl, hinner, hright, hbefore,
    hequals, hafter, hbrace, rfl⟩ := head_eq_ok_iff.mp h
  have hopening : Opening (⟨.word word, place⟩ :: ⟨.mark .openParen text, found⟩ ::
      (inner ++ right :: (before ++ equals :: (after ++ [brace])))) word parameters place :=
    .intro hname ⟨text, rfl⟩ hinner hright hbefore hequals hafter hbrace
  have hshape : Shape _ (.opening ⟨word, parameters, place, brace.location⟩ rest) :=
    .opening hws hopening
  simpa using hshape

/-- A call has been read. -/
theorem Shape.of_names {ws : List Token} {word text : String} {place found : Location}
    {arguments : List String} (hws : Newlines ws) (hname : Name word)
    (h : names stop .argument ts = .ok (arguments, rest)) :
    Shape (ws ++ ⟨.word word, place⟩ :: ⟨.mark .callOpen text, found⟩ :: ts)
      (.item (.call ⟨word, arguments, some place⟩) rest) := by
  obtain ⟨inner, right, rfl, hright, hinner⟩ := names_eq_ok_iff.mp h
  have hleaf : Leaf (⟨.word word, place⟩ :: ⟨.mark .callOpen text, found⟩ :: (inner ++ [right]))
      (.call ⟨word, arguments, some place⟩) rest :=
    .call hname ⟨text, rfl⟩ hinner hright
  simpa using Shape.item hws hleaf

/-- An instruction has been read. -/
theorem Shape.of_instruction {ws : List Token} {word : String} {place : Location}
    {i : Instruction} (hws : Newlines ws) (hnext : Next NoParen ts)
    (h : instruction stop word place ts = .ok (i, rest)) :
    Shape (ws ++ ⟨.word word, place⟩ :: ts) (.item (.instruction i) rest) := by
  obtain ⟨xs, hxs, hline, hword⟩ := instruction_eq_ok_iff.mp h
  rw [hxs]
  refine .item hws (.instruction hline ?_ hword)
  rw [← hxs]
  exact hnext

/-- **A step is sound**: what it has read is what the grammar says. -/
theorem Shape.of_front {f : Front} (h : front stop ts = .ok f) : Shape ts f := by
  obtain ⟨ws, hws, hts⟩ := exists_newlines_append ts
  rw [hts]
  unfold front at h
  split at h
  · rename_i hnil
    cases h
    rw [hnil, List.append_nil]
    exact .finish hws
  · rename_i text place rest hbrace
    cases h
    rw [hbrace]
    exact .close hws ⟨text, rfl⟩
  · rename_i text place rest hcomment
    cases h
    rw [hcomment]
    exact .item hws .comment
  · rename_i word place text found us hword
    split at h
    · rename_i hname
      obtain ⟨⟨hd, rest⟩, hhead, rfl⟩ := map_eq_ok_iff.mp h
      rw [hword]
      exact .of_head hws (isName_iff.mp hname) hhead
    · cases h
  · rename_i word place text found us hword
    split at h
    · rename_i hname
      obtain ⟨⟨arguments, rest⟩, hnames, rfl⟩ := map_eq_ok_iff.mp h
      rw [hword]
      exact .of_names hws (isName_iff.mp hname) hnames
    · cases h
  · rename_i word place us hdeclaration hcall hword
    obtain ⟨⟨i, rest⟩, hinstruction, rfl⟩ := map_eq_ok_iff.mp h
    rw [hword]
    exact .of_instruction hws (next_noParen hdeclaration hcall) hinstruction
  · cases h

theorem front_newline (stop place : Location) (ts : List Token) :
    front stop (⟨.newline, place⟩ :: ts) = front stop ts := rfl

theorem front_newlines {ws : List Token} (hws : Newlines ws) (ts : List Token) :
    front stop (ws ++ ts) = front stop ts := by
  rw [front, front, skipNewlines_append hws]

theorem front_close {brace : Token} (h : brace.Is .closeBrace) :
    front stop (brace :: rest) = .ok (.close brace.location rest) := by
  obtain ⟨text, place, rfl⟩ := h.exists_eq
  rfl

/-- An item without a body is read in one step. -/
theorem front_leaf {xs : List Token} {x : Item} (h : Leaf xs x rest) :
    front stop (xs ++ rest) = .ok (.item x rest) := by
  cases h with
  | comment => rfl
  | @call name place left right inner _ arguments hname hleft hnames hright =>
      obtain ⟨text, found, rfl⟩ := hleft.exists_eq
      have hread : names stop .argument (inner ++ right :: rest) = .ok (arguments, rest) :=
        names_eq_ok_iff.mpr ⟨inner, right, rfl, hright, hnames⟩
      rw [List.cons_append, List.cons_append, List.append_assoc, List.singleton_append]
      simp only [front, skipNewlines, isName_iff.mpr hname, if_true, hread, Except.map]
  | @instruction _ _ i hline hnext hword =>
      obtain ⟨word, place, us, rfl⟩ := hline.exists_eq_cons
      have hread : instruction stop word place (us ++ rest) = .ok (i, rest) :=
        instruction_eq_ok_iff.mpr ⟨_, rfl, hline, hword⟩
      rw [List.cons_append] at hnext ⊢
      rw [front_word rfl hnext, List.tail_cons, hread]
      rfl

/-- A declaration is read up to its body in one step, whatever follows.  The body is opened
where the last token stands. -/
theorem front_opening {xs : List Token} {name : String} {parameters : List String}
    {place : Location} (h : Opening xs name parameters place) :
    ∃ ys brace, xs = ys ++ [brace] ∧ ∀ stop rest,
      front stop (xs ++ rest) = .ok (.opening ⟨name, parameters, place, brace.location⟩ rest) := by
  obtain @⟨_, _, left, right, equals, brace, inner, before, after, _, hname, hleft, hinner, hright,
    hbefore, hequals, hafter, hbrace⟩ := h
  obtain ⟨text, found, rfl⟩ := hleft.exists_eq
  refine ⟨⟨.word name, place⟩ :: ⟨.mark .openParen text, found⟩ ::
    (inner ++ right :: (before ++ equals :: after)), brace, by simp, fun stop rest => ?_⟩
  have hread : head stop name place
      (inner ++ right :: (before ++ equals :: (after ++ brace :: rest))) =
        .ok (⟨name, parameters, place, brace.location⟩, rest) :=
    head_eq_ok_iff.mpr ⟨inner, right, before, equals, after, brace, parameters, rfl, hinner,
      hright, hbefore, hequals, hafter, hbrace, rfl⟩
  simp only [List.cons_append, List.append_assoc, List.nil_append, front, skipNewlines,
    isName_iff.mpr hname, if_true, hread, Except.map]

/-! ## Whole programs -/

section

variable {frames : List Frame} {items : List Item}

theorem build_error {e : Halt} (h : front stop ts = .error e) :
    build stop frames items ts = ⟨[], .error e⟩ := by
  rw [build.eq_def stop frames items ts]
  grind

theorem build_item {x : Item} (h : front stop ts = .ok (.item x rest)) :
    build stop frames items ts = build stop frames (x :: items) rest := by
  rw [build.eq_def stop frames items ts]
  grind

theorem build_opening {hd : Head} (h : front stop ts = .ok (.opening hd rest)) :
    build stop frames items ts = build stop (⟨hd, items⟩ :: frames) [] rest := by
  rw [build.eq_def stop frames items ts]
  grind

theorem build_close_push {hd : Head} {before : List Item} {place : Location}
    (h : front stop ts = .ok (.close place rest)) :
    build stop (⟨hd, before⟩ :: frames) items ts =
      (build stop frames (hd.declare items.reverse :: before) rest).push
        (.readMacro hd.name hd.parameters.length items.length) := by
  rw [build.eq_def stop _ items ts]
  grind

theorem build_close {hd : Head} {before : List Item} {place : Location}
    (h : front stop ts = .ok (.close place rest)) :
    (build stop (⟨hd, before⟩ :: frames) items ts).outcome =
      (build stop frames (hd.declare items.reverse :: before) rest).outcome := by
  rw [build_close_push h]
  rfl

theorem build_finish (h : front stop ts = .ok .finish) :
    build stop [] items ts = ⟨[], .ok items.reverse⟩ := by
  rw [build.eq_def stop [] items ts]
  grind

theorem build_unclosed {frame : Frame} (h : front stop ts = .ok .finish) :
    build stop (frame :: frames) items ts =
      ⟨[], .error ⟨.openBody frame.head.opened, stop⟩⟩ := by
  rw [build.eq_def stop (frame :: frames) items ts]
  grind

theorem build_stray {place : Location} (h : front stop ts = .ok (.close place rest)) :
    build stop [] items ts = ⟨[], .error ⟨.strayBrace, place⟩⟩ := by
  rw [build.eq_def stop [] items ts]
  grind

/-- Reading on depends on what stands next. -/
theorem build_congr {us : List Token} (h : front stop ts = front stop us) :
    build stop frames items ts = build stop frames items us := by
  rw [build.eq_def stop frames items ts, build.eq_def stop frames items us]
  grind

theorem build_nil : (build stop [] items []).outcome = .ok items.reverse := by
  rw [build.eq_def]
  grind [front, skipNewlines]

/-- **What the grammar derives is read**, whatever is open around it: a body adds its
items to those read before, up to what stands apart from it. -/
theorem build_append {p : Program} (h : Body ts p) (hrest : Apart rest) :
    (build stop frames items (ts ++ rest)).outcome =
      (build stop frames (p.reverse ++ items) rest).outcome := by
  induction h generalizing frames items rest with
  | nil => rfl
  | @newline place ts p _ ih =>
      rw [List.cons_append, build_congr (front_newline stop place (ts ++ rest))]
      exact ih hrest
  | @leaf xs ts x p hleaf _ ih =>
      rw [List.append_assoc, build_item (front_leaf (hleaf.append hrest)), ih hrest,
        List.reverse_cons, List.append_assoc, List.singleton_append]
  | @declaration xs inner ts name parameters place brace body p hopening _ hbrace _ ihbody ih =>
      obtain ⟨_, _, _, hfront⟩ := front_opening hopening
      have hends : Ends (brace :: (ts ++ rest)) := by
        intro t ht
        cases ht
        exact hbrace
      rw [List.append_assoc, List.append_assoc, List.cons_append, build_opening (hfront stop _),
        ihbody hends.apart, List.append_nil, build_close (front_close hbrace),
        List.reverse_reverse, ih hrest, List.reverse_cons, List.append_assoc,
        List.singleton_append]
      rfl

/-- What the bodies that are still open ask of the tokens to come: each of them is read
to its closing brace, and then the one around it goes on behind its declaration. -/
def Closes : List Frame → List Item → List Token → Program → Prop
  | [], items, ts, p => ∃ q, Body ts q ∧ p = items.reverse ++ q
  | ⟨hd, before⟩ :: frames, items, ts, p =>
      ∃ inner body brace rest, ts = inner ++ brace :: rest ∧ Body inner body ∧
        brace.Is .closeBrace ∧ Closes frames (hd.declare (items.reverse ++ body) :: before) rest p

/-- Tokens in front that add items to every body add them to the innermost one. -/
theorem Closes.prepend (new : List Item) {xs : List Token} {p : Program}
    (hbody : ∀ us more q, ts = us ++ more → Body us q → Body (xs ++ us) (new ++ q))
    (h : Closes frames (new.reverse ++ items) ts p) : Closes frames items (xs ++ ts) p := by
  cases frames with
  | nil =>
      obtain ⟨q, hq, rfl⟩ := h
      refine ⟨new ++ q, hbody ts [] q (List.append_nil ts).symm hq, ?_⟩
      simp
  | cons frame frames =>
      obtain ⟨inner, body, brace, rest, rfl, hinner, hbrace, hcloses⟩ := h
      refine ⟨xs ++ inner, new ++ body, brace, rest, (List.append_assoc ..).symm,
        hbody inner _ body rfl hinner, hbrace, ?_⟩
      simpa using hcloses

/-- **What is read is derived by the grammar.** -/
theorem closes_of_build {p : Program}
    (h : (build stop frames items ts).outcome = .ok p) : Closes frames items ts p := by
  -- along the reading; each step puts what it has read in front of what the rest asks
  fun_induction build stop frames items ts with
  | case1 => cases h
  | case2 items ts hfront =>
      cases h
      cases Shape.of_front hfront with
      | finish hws =>
          refine ⟨[], ?_, (List.append_nil _).symm⟩
          rw [← List.append_nil ts]
          exact .newlines hws .nil
  | case3 => cases h
  | case4 => cases h
  | case5 items ts place rest hfront hd before frames ih =>
      cases Shape.of_front hfront with
      | @close ws _ brace hws hbrace =>
          refine ⟨ws, [], brace, rest, rfl, ?_, hbrace, ?_⟩
          · rw [← List.append_nil ws]
            exact .newlines hws .nil
          · rw [List.unattach_reverse, List.unattach_attach] at ih
            rw [List.append_nil]
            exact ih h
  | case6 frames items ts x rest hfront ih =>
      cases Shape.of_front hfront with
      | @item ws xs _ _ hws hleaf =>
          rw [← List.append_assoc]
          refine Closes.prepend [x] ?_ (ih h)
          rintro us more q rfl hus
          rw [List.append_assoc]
          exact .newlines hws (.leaf hleaf.of_append hus)
  | case7 frames items ts hd rest hfront ih =>
      -- the new frame says where the body ends, so the whole declaration is at hand
      cases Shape.of_front hfront with
      | @opening ws xs _ _ hws hopening =>
          obtain ⟨inner, body, brace, rest, rfl, hinner, hbrace, hcloses⟩ := ih h
          have hassoc : ∀ us, (ws ++ (xs ++ (inner ++ [brace]))) ++ us =
              ws ++ (xs ++ (inner ++ brace :: us)) := by simp
          rw [← hassoc]
          refine Closes.prepend [hd.declare body] ?_ hcloses
          rintro us more q rfl hus
          rw [hassoc]
          exact .newlines hws (.declaration hopening hinner hbrace hus)

end

/-- A list is read up to its first end of input. -/
theorem ofTokens_append_end {before behind : List Token} (file : String) (stop : Location)
    (h : ∀ t ∈ before, t.lexeme ≠ .endOfInput) :
    Input.ofTokens file (before ++ ⟨.endOfInput, stop⟩ :: behind) = ⟨before, stop⟩ := by
  have htake : ∀ t ∈ before, (!(t.lexeme == .endOfInput)) = true := by simpa using h
  have hfind : before.find? (fun t => t.lexeme == .endOfInput) = none := by simpa using h
  simp [Input.ofTokens, List.takeWhile_append_of_pos htake, hfind]

/-- **Reading is exact.** -/
theorem read_eq_ok_iff {input : Input} {p : Program} :
    (read input).outcome = .ok p ↔ Body input.tokens p := by
  constructor
  · intro h
    obtain ⟨q, hq, rfl⟩ := closes_of_build h
    exact hq
  · intro h
    rw [read, ← List.append_nil input.tokens, build_append h ends_nil.apart, build_nil,
      List.append_nil, List.reverse_reverse]

end MacroAsm.Reader

namespace MacroAsm

open Grammar

/-! ## Source text -/

namespace Token

theorem lexeme_ne_endOfInput_of_cut {c : Char} {cs : List Char} {s : Slice}
    (h : cut c cs = .ok s) : s.lexeme ≠ some .endOfInput := by
  unfold cut at h
  repeat' split at h
  all_goals cases h
  all_goals nofun

/-- The tokens of a text end with the end of input, and it stands nowhere else. -/
theorem exists_of_scanFrom {here : Location} {text : List Char} {tokens : List Token}
    (h : scanFrom here text = ⟨tokens, none⟩) :
    ∃ before stop, tokens = before ++ [⟨.endOfInput, stop⟩] ∧
      ∀ t ∈ before, t.lexeme ≠ .endOfInput := by
  fun_induction scanFrom here text generalizing tokens with
  | case1 here =>
      cases h
      exact ⟨[], here, rfl, nofun⟩
  | case2 => cases h
  | case3 here c cs slice hcut ih =>
      have hlexeme := lexeme_ne_endOfInput_of_cut hcut
      obtain ⟨lexeme, text, rest⟩ := slice
      cases lexeme with
      | none => exact ih h
      | some l =>
          simp only [Scan.push, Scan.mk.injEq] at h
          obtain ⟨rfl, hstop⟩ := h
          obtain ⟨before, stop, htokens, hbefore⟩ := ih (by rw [← hstop])
          refine ⟨⟨l, here⟩ :: before, stop, by rw [htokens, List.cons_append], ?_⟩
          intro t ht
          rcases List.mem_cons.mp ht with rfl | ht
          · exact fun hl => hlexeme (congrArg some hl)
          · exact hbefore t ht

end Token

namespace Program

section

variable {file : String} {tokens : List Token}

theorem ofTokens_eq_ok_iff {source : Option String} {p : Program} :
    (ofTokens file source tokens).outcome = .ok p ↔ Derives tokens p := by
  have hread : (Reader.read (.ofTokens file tokens)).outcome = .ok p ↔ Derives tokens p :=
    Reader.read_eq_ok_iff
  rw [← hread, ofTokens]
  cases (Reader.read (.ofTokens file tokens)).outcome with
  | error halt => constructor <;> (intro h; cases h)
  | ok q => constructor <;> (intro h; cases h; rfl)

/-- Tokens that spell no program are malformed. -/
theorem ofTokens_malformed {source : Option String} (h : ∀ p, ¬ Derives tokens p) :
    ∃ d message, (ofTokens file source tokens).outcome = .error d ∧
      d.cause = .malformed message := by
  cases hread : (Reader.read (.ofTokens file tokens)).outcome with
  | error halt =>
      refine ⟨_, halt.fault.message, by rw [ofTokens, hread]; rfl, rfl⟩
  | ok p => exact absurd (Reader.read_eq_ok_iff.mp hread) (h p)

/-- Tokens that cannot be read have one at which reading halts. -/
theorem ofTokens_eq_error {source : Option String} {d : Diagnostic}
    (h : (ofTokens file source tokens).outcome = .error d) :
    ∃ halt, (Reader.read (.ofTokens file tokens)).outcome = .error halt ∧
      d = .ofFault halt.fault halt.location
        (source.bind fun text => Source.visualLine? text halt.location.line) := by
  rw [ofTokens] at h
  dsimp only at h
  cases hread : (Reader.read (.ofTokens file tokens)).outcome with
  | ok p =>
      rw [hread] at h
      cases h
  | error halt =>
      rw [hread] at h
      cases h
      exact ⟨halt, rfl, rfl⟩

/-- A text that can be cut into tokens is read as they are. -/
theorem outcome_ofSource {source : String} (h : Token.scan file source = ⟨tokens, none⟩) :
    (ofSource file source).outcome = (ofTokens file (some source) tokens).outcome := by
  simp only [ofSource, h]
  cases (ofTokens file (some source) tokens).outcome with
  | error d => rfl
  | ok p => rfl

/-- A text that cannot be read has a character that fits nowhere, or a token that does. -/
theorem ofSource_eq_error_cases {source : String} {d : Diagnostic}
    (h : (ofSource file source).outcome = .error d) :
    (∃ place foreign, (Token.scan file source).stop = some (place, foreign) ∧
      d = .ofForeign source place foreign) ∨
    ∃ tokens halt, Token.scan file source = ⟨tokens, none⟩ ∧
      (Reader.read (.ofTokens file tokens)).outcome = .error halt ∧
      d = .ofFault halt.fault halt.location (Source.visualLine? source halt.location.line) := by
  cases hscan : Token.scan file source with
  | mk tokens stop =>
      cases stop with
      | some stop =>
          obtain ⟨place, foreign⟩ := stop
          simp only [ofSource, hscan, Except.error.injEq] at h
          exact .inl ⟨place, foreign, rfl, h.symm⟩
      | none =>
          rw [outcome_ofSource hscan] at h
          obtain ⟨halt, hread, rfl⟩ := ofTokens_eq_error h
          exact .inr ⟨tokens, halt, rfl, hread, rfl⟩

end

end Program

open Program

/-- **Parsing is exact**: a text that can be cut into tokens is read as a program if and
only if its tokens spell that program.  The same is true of any list of tokens.  No
list spells two programs, and one that spells none is malformed. -/
theorem parse_eq_ok_iff_derives (file : String) :
    (∀ source tokens, Token.scan file source = ⟨tokens, none⟩ →
      (∃ before stop, tokens = before ++ [⟨.endOfInput, stop⟩] ∧
        ∀ t ∈ before, t.lexeme ≠ .endOfInput) ∧
      (∀ p, (ofSource file source).outcome = .ok p ↔ Derives tokens p) ∧
      ((∀ p, ¬ Derives tokens p) → ∃ d message,
        (ofSource file source).outcome = .error d ∧ d.cause = .malformed message)) ∧
    (∀ source tokens,
      (∀ p, (ofTokens file source tokens).outcome = .ok p ↔ Derives tokens p) ∧
      ((∀ p, ¬ Derives tokens p) → ∃ d message,
        (ofTokens file source tokens).outcome = .error d ∧ d.cause = .malformed message)) ∧
    ∀ tokens p q, Derives tokens p → Derives tokens q → p = q := by
  refine ⟨fun source tokens hscan => ?_, fun source tokens => ?_, fun tokens p q hp hq => ?_⟩
  · rw [outcome_ofSource hscan]
    exact ⟨Token.exists_of_scanFrom hscan, fun p => ofTokens_eq_ok_iff, ofTokens_malformed⟩
  · exact ⟨fun p => ofTokens_eq_ok_iff, ofTokens_malformed⟩
  · -- reading is a function, so what it accepts determines the program
    have hread : (ofTokens file none tokens).outcome = .ok p := ofTokens_eq_ok_iff.mpr hp
    rw [ofTokens_eq_ok_iff.mpr hq] at hread
    exact (Except.ok.inj hread).symm

/-- The tokens of a declaration whose body is one instruction, the operand of which is
the name of an operation. -/
def declarationTokens : List Token :=
  [⟨.word "A", ⟨"f", 1, 1⟩⟩, ⟨.mark .openParen "(", ⟨"f", 1, 2⟩⟩, ⟨.newline, ⟨"f", 1, 3⟩⟩,
   ⟨.word "x", ⟨"f", 2, 1⟩⟩, ⟨.mark .closeParen ")", ⟨"f", 2, 2⟩⟩,
   ⟨.mark .equals "=", ⟨"f", 2, 3⟩⟩, ⟨.mark .openBrace "\x7b", ⟨"f", 2, 4⟩⟩,
   ⟨.word "HLT", ⟨"f", 2, 5⟩⟩, ⟨.word "BR", ⟨"f", 2, 9⟩⟩,
   ⟨.mark .closeBrace "\x7d", ⟨"f", 2, 11⟩⟩, ⟨.endOfInput, ⟨"f", 2, 12⟩⟩]

/-- The program that they spell. -/
def declarationProgram : Program :=
  [.declaration "A" ["x"] [.instruction ⟨.hlt, none, some "BR", some ⟨"f", 2, 5⟩⟩]
    (some ⟨"f", 1, 1⟩)]

theorem derives_declarationTokens : Derives declarationTokens declarationProgram := by
  have hline : Line [⟨.word "HLT", ⟨"f", 2, 5⟩⟩, ⟨.word "BR", ⟨"f", 2, 9⟩⟩]
      ⟨.hlt, none, some "BR", some ⟨"f", 2, 5⟩⟩ :=
    .unlabelled (Opcode.ofWord?_eq_some_iff.mp (by decide)) .word
  have hleaf : Leaf [⟨.word "HLT", ⟨"f", 2, 5⟩⟩, ⟨.word "BR", ⟨"f", 2, 9⟩⟩]
      (.instruction ⟨.hlt, none, some "BR", some ⟨"f", 2, 5⟩⟩) [] :=
    .instruction hline (by rintro t ⟨⟩; exact ⟨nofun, nofun⟩) nofun
  have hnames : Names [⟨.newline, ⟨"f", 1, 3⟩⟩, ⟨.word "x", ⟨"f", 2, 1⟩⟩] ["x"] :=
    .inr (.one (Reader.isName_iff.mp (by decide)))
  have hopening : Opening (declarationTokens.take 7) "A" ["x"] ⟨"f", 1, 1⟩ :=
    @Opening.intro _ _ _ _ _ _ [⟨.newline, ⟨"f", 1, 3⟩⟩, ⟨.word "x", ⟨"f", 2, 1⟩⟩] [] [] _
      (Reader.isName_iff.mp (by decide)) ⟨_, rfl⟩ hnames ⟨_, rfl⟩ nofun ⟨_, rfl⟩ nofun ⟨_, rfl⟩
  exact .declaration hopening (.leaf hleaf .nil) ⟨_, rfl⟩ .nil

theorem read_declarationTokens {source : String}
    (h : Token.scan "f" source = ⟨declarationTokens, none⟩) :
    (ofSource "f" source).outcome = .ok declarationProgram := by
  rw [outcome_ofSource h, ofTokens_eq_ok_iff]
  exact derives_declarationTokens

/-- The body of a macro, read from text. -/
theorem ofSource_declaration :
    Token.scan "f" "A(\nx)=\x7bHLT BR\x7d" = ⟨declarationTokens, none⟩ ∧
      (ofSource "f" "A(\nx)=\x7bHLT BR\x7d").outcome = .ok declarationProgram := by
  have hscan : Token.scan "f" "A(\nx)=\x7bHLT BR\x7d" = ⟨declarationTokens, none⟩ := by
    decide +kernel
  obtain ⟨_, hread, _⟩ := (parse_eq_ok_iff_derives "f").1 _ _ hscan
  exact ⟨hscan, (hread _).mpr derives_declarationTokens⟩

end MacroAsm
