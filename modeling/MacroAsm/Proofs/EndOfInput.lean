import Mathlib.Data.List.TakeWhile
import MacroAsm.Proofs.Cursor

/-!
# MacroAsm.Proofs.EndOfInput

The end of input is a hard stop.  The reader cuts a list of tokens at its end before it starts;
a cursor that moves over the list as it is reads the same, and never takes an end of input.

* `Faces` — what is in front of a cursor: the tokens up to the end of input, and where that is,
  no matter if it is a token of the list or made up;
* `Agrees` — a cursor and a reader of lists come to the same result; there is one lemma for every
  function of the reader, and `build_eq` for whole programs;
* `reading_stops_at_end` — from the cursor to lists of tokens.
-/

namespace MacroAsm

/-! ## Where a list of tokens ends -/

/-- The end of input of a list that has none: at the line and the column of the last token, in the
given file. -/
def Token.impliedEnd (file : String) (ts : List Token) : Token :=
  ⟨.endOfInput, ts.getLast?.elim ⟨file, 1, 1⟩ fun t => ⟨file, t.location.line, t.location.column⟩⟩

namespace Reader

/-- A list has a first end of input, or none. -/
theorem exists_first_end (tokens : List Token) :
    (∀ t ∈ tokens, t.lexeme ≠ .endOfInput) ∨
      ∃ before stop behind, tokens = before ++ ⟨.endOfInput, stop⟩ :: behind ∧
        ∀ t ∈ before, t.lexeme ≠ .endOfInput := by
  cases hfind : tokens.find? fun t => t.lexeme == .endOfInput with
  | none => exact .inl (by simpa using hfind)
  | some t =>
    obtain ⟨hend, before, behind, rfl, hbefore⟩ := List.find?_eq_some_iff_append.mp hfind
    obtain ⟨lexeme, stop⟩ := t
    obtain rfl : lexeme = .endOfInput := by simpa using hend
    exact .inr ⟨before, stop, behind, rfl, by simpa using hbefore⟩

theorem ofTokens_endless {ts : List Token} (file : String)
    (h : ∀ t ∈ ts, t.lexeme ≠ .endOfInput) :
    Input.ofTokens file ts = ⟨ts, (Token.impliedEnd file ts).location⟩ := by
  have htake : ts.takeWhile (fun t => !(t.lexeme == .endOfInput)) = ts := by
    simpa [List.takeWhile_eq_self_iff] using h
  have hfind : ts.find? (fun t => t.lexeme == .endOfInput) = none := by simpa using h
  simp only [Input.ofTokens, htake, hfind, Token.impliedEnd]
  cases ts.getLast? <;> rfl

/-- What stands behind an end of input is cut off. -/
theorem ofTokens_append_behind (file : String) (before behind : List Token) (stop : Location) :
    Input.ofTokens file (before ++ ⟨.endOfInput, stop⟩ :: behind) =
      Input.ofTokens file (before ++ [⟨.endOfInput, stop⟩]) := by
  -- there may be an earlier end of input, which is then the one that counts
  rcases exists_first_end before with hend | ⟨first, stop', more, rfl, hfirst⟩
  · rw [ofTokens_append_end file stop hend, ofTokens_append_end file stop hend]
  · rw [List.append_assoc, List.append_assoc, List.cons_append, List.cons_append,
      ofTokens_append_end file stop' hfirst, ofTokens_append_end file stop' hfirst]

end Reader

namespace Cursor

open Reader Grammar

variable {file : String} {c : Cursor} {stop : Location} {ts : List Token}

/-! ## What is in front of a cursor -/

/-- Moving on from a cursor, one comes to the tokens `ts` and then to an end of input at `stop`. -/
inductive Faces (file : String) : Cursor → Location → List Token → Prop where
  | done {c : Cursor} : (c.current file).lexeme = .endOfInput →
      Faces file c (c.current file).location []
  | step {c : Cursor} {stop : Location} {ts : List Token} :
      (c.current file).lexeme ≠ .endOfInput → Faces file (c.advance file) stop ts →
      Faces file c stop (c.current file :: ts)

theorem Faces.current_eq (h : Faces file c stop ts) : c.current file = peek stop ts := by
  cases h with
  | done hend => rw [peek, ← hend]
  | step => rfl

/-- What is at the cursor, if it is no end of input, is the first of the tokens. -/
theorem Faces.exists_cons {lexeme : Lexeme} (h : Faces file c stop ts)
    (hlexeme : (c.current file).lexeme = lexeme) (hne : lexeme ≠ .endOfInput) :
    ∃ rest, ts = ⟨lexeme, (c.current file).location⟩ :: rest ∧
      Faces file (c.advance file) stop rest := by
  subst hlexeme
  cases h with
  | done hend => exact absurd hend hne
  | step _ hrest => exact ⟨_, rfl, hrest⟩

/-- The first of the tokens is at the cursor. -/
theorem Faces.lexeme_of_cons {lexeme : Lexeme} {place : Location}
    (h : Faces file c stop (⟨lexeme, place⟩ :: ts)) : (c.current file).lexeme = lexeme := by
  rw [h.current_eq]
  rfl

theorem Faces.skipNewlines (h : Faces file c stop ts) :
    Faces file (c.skipNewlines file) stop (Reader.skipNewlines ts) := by
  induction h with
  | @done c hend =>
    rw [Cursor.skipNewlines, dif_neg (by simp [hend])]
    exact .done hend
  | @step c stop ts hne hts ih =>
    rw [Cursor.skipNewlines]
    split
    · rename_i hnewline
      generalize c.current file = t at hnewline
      obtain ⟨lexeme, place⟩ := t
      obtain rfl : lexeme = .newline := hnewline
      exact ih
    · rename_i hnewline
      rw [skipNewlines_cons hnewline]
      exact .step hne hts

theorem faces_append_end {stop : Location} {behind : List Token}
    (h : ∀ t ∈ ts, t.lexeme ≠ .endOfInput) (taken : List Token) :
    Faces file ⟨taken, ts ++ ⟨.endOfInput, stop⟩ :: behind⟩ stop ts := by
  induction ts generalizing taken with
  | nil => exact .done rfl
  | cons t ts ih =>
    obtain ⟨ht, hts⟩ := List.forall_mem_cons.mp h
    exact .step ht (ih hts (t :: taken))

/-- Where a list has no end of input, the cursor makes one up behind the last token. -/
theorem faces_endless (file : String) (h : ∀ t ∈ ts, t.lexeme ≠ .endOfInput)
    (taken : List Token) :
    Faces file ⟨taken, ts⟩ (Cursor.current file ⟨ts.reverse ++ taken, []⟩).location ts := by
  induction ts generalizing taken with
  | nil => exact .done (by cases taken <;> rfl)
  | cons t ts ih =>
    obtain ⟨ht, hts⟩ := List.forall_mem_cons.mp h
    rw [List.reverse_cons, List.append_assoc, List.singleton_append]
    exact .step ht (ih hts (t :: taken))

theorem current_reverse (file : String) (ts : List Token) :
    Cursor.current file ⟨ts.reverse, []⟩ = Token.impliedEnd file ts := by
  rw [Token.impliedEnd, List.getLast?_eq_head?_reverse]
  cases ts.reverse <;> rfl

/-- A list of tokens is cut where a cursor comes to its end. -/
theorem faces_ofTokens (tokens : List Token) :
    Faces file ⟨[], tokens⟩ (Input.ofTokens file tokens).stop
      (Input.ofTokens file tokens).tokens := by
  rcases exists_first_end tokens with hend | ⟨before, stop, behind, rfl, hbefore⟩
  · have hfaces := faces_endless file hend []
    rw [List.append_nil, current_reverse] at hfaces
    rw [ofTokens_endless file hend]
    exact hfaces
  · rw [ofTokens_append_end file stop hbefore]
    exact faces_append_end hbefore []

/-! ## Parts of items -/

/-- A cursor comes to the same result as a reader of lists: it stops for the same reason, which
names the same place, or what has been read and where the cursor is then are related by `Q`. -/
inductive Agrees {α β : Type} (Q : α → β → Cursor → Prop) :
    Except Halt α → Except Halt β × Cursor → Prop where
  | ok {a : α} {b : β} {c : Cursor} : Q a b c → Agrees Q (.ok a) (.ok b, c)
  | error {e : Halt} {c : Cursor} : Agrees Q (.error e) (.error e, c)

/-- The same part has been read, and the cursor is in front of what is left. -/
abbrev SamePart {α : Type} (file : String) (stop : Location) : α × List Token → α → Cursor → Prop :=
  fun r a c => r.1 = a ∧ Faces file c stop r.2

section

variable {α β α' β' : Type} {Q : α → β → Cursor → Prop} {R : α' → β' → Cursor → Prop}

theorem Agrees.eq_error {r : Except Halt α} {e : Halt}
    (h : Agrees Q r ((.error e : Except Halt β), c)) : r = .error e := by
  cases h
  rfl

theorem Agrees.exists_ok {r : Except Halt α} {b : β} (h : Agrees Q r (.ok b, c)) :
    ∃ a, r = .ok a ∧ Q a b c := by
  cases h with
  | ok hab => exact ⟨_, rfl, hab⟩

theorem Agrees.map {f : α → α'} {g : β → β'} {r : Except Halt α} {walk : Walk β}
    (h : Agrees Q r (walk c)) (hR : ∀ a b d, Q a b d → R (f a) (g b) d) :
    Agrees R (r.map f) (walk.map g c) := by
  unfold Walk.map
  generalize walk c = w at h
  cases h with
  | ok hab => exact .ok (hR _ _ _ hab)
  | error => exact .error

theorem Agrees.mapPart (f : α → β) {r : Except Halt (α × List Token)} {walk : Walk α}
    (h : Agrees (SamePart file stop) r (walk c)) :
    Agrees (SamePart file stop) (r.map fun part => (f part.1, part.2)) (walk.map f c) :=
  h.map fun _ _ _ hsame => ⟨congrArg f hsame.1, hsame.2⟩

theorem Agrees.andThen {read : PartReader α} {next : α → PartReader β} {walk : Walk α}
    {nextWalk : α → Walk β} (h : Agrees (SamePart file stop) (read ts) (walk c))
    (hnext : ∀ a d us, Faces file d stop us →
      Agrees (SamePart file stop) (next a us) (nextWalk a d)) :
    Agrees (SamePart file stop) (read.andThen next ts) (walk.andThen nextWalk c) := by
  unfold PartReader.andThen Walk.andThen
  generalize read ts = r at h
  generalize walk c = w at h
  cases h with
  | @ok a b d hab =>
    obtain ⟨a, us⟩ := a
    obtain ⟨rfl, hus⟩ := hab
    exact hnext a d us hus
  | error => exact .error

theorem agrees_halt {fault : Lexeme → Fault} (h : Faces file c stop ts) :
    Agrees Q (Reader.halt stop ts fault) (Walk.halt file fault c) := by
  rw [Reader.halt, Walk.halt, h.current_eq]
  exact .error

end

theorem agrees_expect {m : Mark} {fault : Lexeme → Fault} (h : Faces file c stop ts) :
    Agrees (SamePart file stop) (Reader.expect stop m fault ts) (expect file m fault c) := by
  have hskip := h.skipNewlines
  unfold expect
  dsimp only
  split
  · rename_i n text hmark
    obtain ⟨rest, hts, hrest⟩ := hskip.exists_cons hmark Lexeme.noConfusion
    split
    · rename_i heq
      subst heq
      rw [expect_of_eq hts]
      exact .ok ⟨rfl, hrest⟩
    · rename_i hne
      rw [expect_of_ne]
      · exact agrees_halt hskip
      · intro text' place us hus
        rw [hus] at hts
        cases hts
        exact hne rfl
  · rename_i hother
    rw [expect_of_ne]
    · exact agrees_halt hskip
    · intro text place us hus
      rw [hus] at hskip
      exact hother _ _ hskip.lexeme_of_cons

theorem agrees_someNames {role : NameRole} (c : Cursor) : ∀ ts, Faces file c stop ts →
    Agrees (SamePart file stop) (Reader.someNames stop role ts) (someNames file role c) := by
  fun_induction someNames file role c with
  | case1 c word name hword hname separator text hcomma more ih =>
    intro ts h
    obtain ⟨us, hts, hus⟩ := h.skipNewlines.exists_cons hword Lexeme.noConfusion
    obtain ⟨rest, hseparator, hrest⟩ := hus.skipNewlines.exists_cons hcomma Lexeme.noConfusion
    rw [someNames_eq, hts]
    simp only [hname, if_true, hseparator]
    exact (ih rest hrest).mapPart (name :: ·)
  | case2 c word name hword hname separator text hclose =>
    intro ts h
    obtain ⟨us, hts, hus⟩ := h.skipNewlines.exists_cons hword Lexeme.noConfusion
    obtain ⟨rest, hseparator, hrest⟩ := hus.skipNewlines.exists_cons hclose Lexeme.noConfusion
    rw [someNames_eq, hts]
    simp only [hname, if_true, hseparator]
    exact .ok ⟨rfl, hrest⟩
  | case3 c word name hword hname separator hcomma hclose =>
    intro ts h
    obtain ⟨us, hts, hus⟩ := h.skipNewlines.exists_cons hword Lexeme.noConfusion
    rw [someNames_eq, hts]
    simp only [hname, if_true]
    split
    · rename_i hus'
      exact absurd (hus' ▸ hus.skipNewlines).lexeme_of_cons (hcomma _)
    · rename_i hus'
      exact absurd (hus' ▸ hus.skipNewlines).lexeme_of_cons (hclose _)
    · exact agrees_halt hus.skipNewlines
  | case4 c word name hword hname =>
    intro ts h
    obtain ⟨us, hts, -⟩ := h.skipNewlines.exists_cons hword Lexeme.noConfusion
    rw [someNames_eq, hts]
    simp only [hname]
    exact .error
  | case5 c word hword =>
    intro ts h
    rw [someNames_eq]
    split
    · rename_i hts
      exact absurd (hts ▸ h.skipNewlines).lexeme_of_cons (hword _)
    · exact agrees_halt h.skipNewlines

theorem agrees_names {role : NameRole} (h : Faces file c stop ts) :
    Agrees (SamePart file stop) (Reader.names stop role ts) (names file role c) := by
  unfold names
  dsimp only
  split
  · rename_i text hclose
    obtain ⟨rest, hts, hrest⟩ := h.skipNewlines.exists_cons hclose Lexeme.noConfusion
    rw [Reader.names, hts]
    exact .ok ⟨rfl, hrest⟩
  · rename_i hclose
    unfold Reader.names
    split
    · rename_i hts
      exact absurd (hts ▸ h.skipNewlines).lexeme_of_cons (hclose _)
    · exact agrees_someNames _ _ h.skipNewlines

theorem agrees_operand (h : Faces file c stop ts) :
    Agrees (SamePart file stop) (.ok (Reader.operand ts)) (operand file c) := by
  unfold operand
  split
  · rename_i text hword
    obtain ⟨rest, rfl, hrest⟩ := h.exists_cons hword Lexeme.noConfusion
    exact .ok ⟨rfl, hrest⟩
  · rename_i hword
    unfold Reader.operand
    split
    · exact absurd h.lexeme_of_cons (hword _)
    · exact .ok ⟨rfl, h⟩

theorem agrees_instruction {word : String} {place : Location} (h : Faces file c stop ts) :
    Agrees (SamePart file stop) (Reader.instruction stop word place ts)
      (instruction file word place c) := by
  unfold instruction Reader.instruction
  cases Opcode.ofWord? word with
  | some opcode =>
    exact (agrees_operand h).mapPart fun o => (⟨opcode, none, o, some place⟩ : Instruction)
  | none =>
    cases Word.isLabel word with
    | false => exact .error
    | true =>
      simp only [if_true]
      split
      · rename_i name found rest
        obtain ⟨us, hts, hus⟩ := h.exists_cons h.lexeme_of_cons Lexeme.noConfusion
        cases hts
        rw [h.current_eq]
        simp only [peek]
        cases Opcode.ofWord? name with
        | some opcode =>
          exact (agrees_operand hus).mapPart fun o =>
            (⟨opcode, some word, o, some place⟩ : Instruction)
        | none => exact .error
      · rename_i hword
        split
        · rename_i name hname
          obtain ⟨rest, hts, -⟩ := h.exists_cons hname Lexeme.noConfusion
          exact absurd hts (hword _ _ _)
        · exact agrees_halt h

theorem agrees_head {name : String} {place : Location} (h : Faces file c stop ts) :
    Agrees (SamePart file stop) (Reader.head stop name place ts) (head file name place c) := by
  rw [head_eq]
  refine (agrees_names h).andThen fun parameters d us hus => ?_
  refine (agrees_expect hus).andThen fun _ d us hus => ?_
  exact (agrees_expect hus).andThen fun opened d us hus => .ok ⟨rfl, hus⟩

/-! ## Whole programs -/

/-- The same start of an item has been read, and the cursor is in front of what is left. -/
inductive SameStart (file : String) (stop : Location) : Front → Start → Cursor → Prop where
  | item {item : Item} {rest : List Token} {c : Cursor} :
      Faces file c stop rest → SameStart file stop (.item item rest) (.item item) c
  | opening {head : Head} {rest : List Token} {c : Cursor} :
      Faces file c stop rest → SameStart file stop (.opening head rest) (.opening head) c

/-- A mark that is seen behind a word is there. -/
theorem Faces.exists_cons_of_following {word text : String} {place : Location} {m : Mark}
    (h : Faces file c stop (⟨.word word, place⟩ :: ts))
    (hmark : (c.following file).lexeme = .mark m text) :
    ∃ found rest, ts = ⟨.mark m text, found⟩ :: rest ∧
      Faces file ((c.advance file).advance file) stop rest := by
  have hword := h.lexeme_of_cons
  obtain ⟨us, hts, hus⟩ := h.exists_cons hword Lexeme.noConfusion
  obtain ⟨rest, hrest, hfaces⟩ :=
    hus.exists_cons (lexeme_current_advance hword hmark) Lexeme.noConfusion
  cases hts
  exact ⟨_, rest, hrest, hfaces⟩

/-- A mark that is behind a word is seen there. -/
theorem Faces.lexeme_following {word text : String} {place found : Location} {m : Mark}
    (h : Faces file c stop (⟨.word word, place⟩ :: ⟨.mark m text, found⟩ :: ts)) :
    (c.following file).lexeme = .mark m text := by
  have hword := h.lexeme_of_cons
  obtain ⟨us, hts, hus⟩ := h.exists_cons hword Lexeme.noConfusion
  cases hts
  rcases following_cases (hword.trans_ne Lexeme.noConfusion) with hnext | ⟨hend, -⟩
  · rw [hnext, hus.lexeme_of_cons]
  · cases hus.lexeme_of_cons.symm.trans hend

/-- A cursor starts an item as the reader of lists does.  An end of input and a closing brace are
left to `build`. -/
theorem agrees_start (h : Faces file c stop (Reader.skipNewlines ts))
    (hend : (c.current file).lexeme ≠ .endOfInput)
    (hclose : ∀ text, (c.current file).lexeme ≠ .mark .closeBrace text) :
    Agrees (SameStart file stop) (front stop ts) (start file c) := by
  unfold start
  dsimp only
  split
  · rename_i text hcomment
    obtain ⟨rest, hts, hrest⟩ := h.exists_cons hcomment Lexeme.noConfusion
    rw [front, hts]
    exact .ok (.item hrest)
  · rename_i word hword
    obtain ⟨rest, hts, hrest⟩ := h.exists_cons hword Lexeme.noConfusion
    rw [hts] at h
    split
    · rename_i text hparen
      obtain ⟨found, us, rfl, hus⟩ := h.exists_cons_of_following hparen
      rw [front, hts]
      dsimp only
      split
      · refine (agrees_head hus).map fun r hd d hsame => ?_
        obtain ⟨rfl, hd⟩ := hsame
        exact .opening hd
      · exact .error
    · rename_i text hparen
      obtain ⟨found, us, rfl, hus⟩ := h.exists_cons_of_following hparen
      rw [front, hts]
      dsimp only
      split
      · refine (agrees_names hus).map fun r arguments d hsame => ?_
        obtain ⟨rfl, hd⟩ := hsame
        exact .item hd
      · exact .error
    · rename_i hopen hcall
      have hnext : Next NoParen rest := by
        refine next_noParen (fun text place more hmore => ?_) (fun text place more hmore => ?_)
        · exact hopen text (hmore ▸ h).lexeme_following
        · exact hcall text (hmore ▸ h).lexeme_following
      rw [front_word hts hnext]
      refine (agrees_instruction hrest).map fun r i d hsame => ?_
      obtain ⟨rfl, hd⟩ := hsame
      exact .item hd
  · rename_i hcomment hword
    obtain ⟨rest, hts, -⟩ := h.exists_cons rfl hend
    rw [front_unexpected hts hclose hcomment hword]
    exact .error

/-- At an end of input there is nothing left. -/
theorem Faces.front_finish (h : Faces file c stop (Reader.skipNewlines ts))
    (hend : (c.current file).lexeme = .endOfInput) :
    front stop ts = .ok .finish ∧ (c.current file).location = stop := by
  rw [front]
  cases hts : Reader.skipNewlines ts with
  | nil =>
    rw [hts] at h
    exact ⟨rfl, by rw [h.current_eq]; rfl⟩
  | cons t rest =>
    rw [hts] at h
    cases h with
    | step hne => exact absurd hend hne

/-- **A cursor reads what the reader of lists reads**, with the same events on the way. -/
theorem build_eq (frames : List Frame) (items : List Item) (c : Cursor) :
    ∀ ts, Faces file c stop ts →
      (build file frames items c).1 = Reader.build stop frames items ts := by
  -- along the cursor's reading: what it faces is what is left of the list
  fun_induction build file frames items c with
  | case1 items c next hend =>
    intro ts h
    obtain ⟨hfront, -⟩ := h.skipNewlines.front_finish hend
    rw [build_finish hfront]
  | case2 items c next place hend frame frames =>
    intro ts h
    obtain ⟨hfront, hstop⟩ := h.skipNewlines.front_finish hend
    rw [build_unclosed hfront, ← hstop]
  | case3 items c next place text hbrace =>
    intro ts h
    obtain ⟨rest, hts, -⟩ := h.skipNewlines.exists_cons hbrace Lexeme.noConfusion
    have hfront : front stop ts = .ok (.close place rest) := by rw [front, hts]
    rw [build_stray hfront]
  | case4 items c next text hbrace hd before frames ih =>
    rw [List.unattach_reverse, List.unattach_attach] at ih
    intro ts h
    obtain ⟨rest, hts, hrest⟩ := h.skipNewlines.exists_cons hbrace Lexeme.noConfusion
    have hfront : front stop ts = .ok (.close (next.current file).location rest) := by
      rw [front, hts]
    rw [build_close_push hfront, ← ih rest hrest]
  | case5 frames items c next e d hstart hend hclose =>
    intro ts h
    have hagrees := agrees_start h.skipNewlines hend hclose
    rw [hstart] at hagrees
    rw [build_error hagrees.eq_error]
  | case6 frames items c next item d hstart hend hclose ih =>
    intro ts h
    have hagrees := agrees_start h.skipNewlines hend hclose
    rw [hstart] at hagrees
    obtain ⟨_, hfront, hsame⟩ := hagrees.exists_ok
    cases hsame with
    | item hrest => rw [build_item hfront, ih _ hrest]
  | case7 frames items c next hd d hstart hend hclose ih =>
    intro ts h
    have hagrees := agrees_start h.skipNewlines hend hclose
    rw [hstart] at hagrees
    obtain ⟨_, hfront, hsame⟩ := hagrees.exists_ok
    cases hsame with
    | opening hrest => rw [build_opening hfront, ih _ hrest]

/-- **A cursor over a list of tokens reads what the list is read as.** -/
theorem read_eq (file : String) (tokens : List Token) :
    (read file tokens).1 = Reader.read (.ofTokens file tokens) :=
  build_eq [] [] _ _ (faces_ofTokens tokens)

end Cursor

open Program Reader

/-- **The end of input is a hard stop.**  A cursor that moves over the tokens one by one reads
what the list is read as, and takes no end of input, whether it succeeds or not.  So nothing
behind an end of input matters, and a list without one is read as if it had one at the line and
the column of its last token. -/
theorem reading_stops_at_end (file : String) (source : Option String) :
    (∀ tokens,
      let last := (Cursor.read file tokens).2
      (Cursor.read file tokens).1 = Reader.read (.ofTokens file tokens) ∧
        tokens = last.taken.reverse ++ last.left ∧ ∀ t ∈ last.taken, t.lexeme ≠ .endOfInput) ∧
    (∀ before stop behind,
      ofTokens file source (before ++ ⟨.endOfInput, stop⟩ :: behind) =
        ofTokens file source (before ++ [⟨.endOfInput, stop⟩])) ∧
    ∀ ts, (∀ t ∈ ts, t.lexeme ≠ .endOfInput) →
      ofTokens file source ts = ofTokens file source (ts ++ [Token.impliedEnd file ts]) := by
  refine ⟨fun tokens => ?_, fun before stop behind => ?_, fun ts hend => ?_⟩
  · have honward := Cursor.onward_build file [] [] ⟨[], tokens⟩
    refine ⟨Cursor.read_eq file tokens, honward.append_eq.symm, ?_⟩
    exact honward.ne_endOfInput fun t ht => absurd ht List.not_mem_nil
  · rw [ofTokens, ofTokens, ofTokens_append_behind]
  · rw [ofTokens, ofTokens, ofTokens_endless file hend, Token.impliedEnd,
      ofTokens_append_end file _ hend]

/-- A call that is cut off where its second argument should be. -/
def cutOffTokens : List Token :=
  [⟨.word "A", ⟨"g", 3, 1⟩⟩, ⟨.mark .callOpen "!(", ⟨"g", 3, 2⟩⟩, ⟨.word "x", ⟨"g", 3, 4⟩⟩,
   ⟨.mark .comma ",", ⟨"g", 3, 5⟩⟩]

theorem read_cutOffTokens : ∃ d, (ofTokens "f" none cutOffTokens).outcome = .error d ∧
    d.location = some ⟨"f", 3, 5⟩ := by
  have hinput : Input.ofTokens "f" cutOffTokens = ⟨cutOffTokens, ⟨"f", 3, 5⟩⟩ := by decide
  rw [ofTokens, hinput, Reader.read, cutOffTokens, build_error (by with_unfolding_all rfl)]
  exact ⟨_, rfl, rfl⟩

/-- Behind an end of input, the rest of the call makes no difference. -/
theorem cutOffTokens_stop_at_end :
    let tokens := cutOffTokens ++ ⟨.endOfInput, ⟨"f", 3, 5⟩⟩ ::
      [⟨.word "y", ⟨"g", 3, 6⟩⟩, ⟨.mark .closeParen ")", ⟨"g", 3, 7⟩⟩]
    (∀ t ∈ cutOffTokens, t.lexeme ≠ .endOfInput) ∧
    (∀ t ∈ (Cursor.read "f" tokens).2.taken, t.lexeme ≠ .endOfInput) ∧
    ofTokens "f" none tokens = ofTokens "f" none cutOffTokens ∧
    ∃ d, (ofTokens "f" none tokens).outcome = .error d ∧ d.location = some ⟨"f", 3, 5⟩ := by
  intro tokens
  obtain ⟨hcursor, hbehind, hendless⟩ := reading_stops_at_end "f" none
  have hend : ∀ t ∈ cutOffTokens, t.lexeme ≠ .endOfInput := by decide
  have hsame : ofTokens "f" none tokens = ofTokens "f" none cutOffTokens :=
    (hbehind cutOffTokens _ _).trans (hendless cutOffTokens hend).symm
  refine ⟨hend, (hcursor tokens).2.2, hsame, ?_⟩
  rw [hsame]
  exact read_cutOffTokens

end MacroAsm
