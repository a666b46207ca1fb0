import Mathlib.Data.List.Forall2
import Mathlib.Data.Nat.Init
import MacroAsm.Proofs.PlaceMaps
import MacroAsm.Proofs.Reading

/-!
# MacroAsm.Proofs.Relocation

The reader passes places on and never looks at them.  Two lists of tokens may spell the
same lexemes at other places: every token that is no line end has moved by `f`, and of a
line end it is only known that the two places are `near` each other (`Token.Moved`).
Reading them gives a program that has moved by `f`, or the same fault at places that are near
each other (`alike_build`).  There is one lemma for every function of the reader.

What `near` says is left open, so that tokens may move for different reasons: because the
text has another name, stands further down in a file, or ends its lines in another way.
-/

namespace MacroAsm

/-! ## Faults and tokens at other places -/

/-- A fault that has moved: only an open body says where it was opened. -/
def Fault.relocate (f : Location → Location) : Fault → Fault
  | .openBody opened => .openBody (f opened)
  | fault => fault

@[simp] theorem Fault.message_relocate (f : Location → Location) (fault : Fault) :
    (fault.relocate f).message = fault.message := by
  cases fault <;> rfl

/-- The same lexeme at another place, which is known exactly unless it is a line end. -/
structure Token.Moved (f : Location → Location) (near : Location → Location → Prop)
    (t t' : Token) : Prop where
  lexeme : t'.lexeme = t.lexeme
  near : near t.location t'.location
  place : t.lexeme ≠ .newline → t'.location = f t.location

namespace Reader

/-- The head of a declaration that has moved. -/
def Head.relocate (f : Location → Location) (h : Head) : Head :=
  { h with location := f h.location, opened := f h.opened }

/-- An open body that has moved. -/
def Frame.relocate (f : Location → Location) (frame : Frame) : Frame :=
  ⟨frame.head.relocate f, frame.before.map (Item.relocate f)⟩

section Moved

variable {f : Location → Location} {near : Location → Location → Prop}
variable {stop stop' : Location} {ts ts' : List Token}

/-- Tokens that have moved one by one. -/
abbrev Moved (f : Location → Location) (near : Location → Location → Prop) :
    List Token → List Token → Prop :=
  List.Forall₂ (Token.Moved f near)

/-- Two results that differ by a move: values that are related by `Q`, or the same fault at
places that are near each other. -/
inductive Alike (f : Location → Location) (near : Location → Location → Prop) {α : Type}
    (Q : α → α → Prop) : Except Halt α → Except Halt α → Prop
  | ok {a b : α} : Q a b → Alike f near Q (.ok a) (.ok b)
  | error {fault : Fault} {place place' : Location} : near place place' →
      Alike f near Q (.error ⟨fault, place⟩) (.error ⟨fault.relocate f, place'⟩)

theorem Alike.map {α β : Type} {Q : α → α → Prop} {R : β → β → Prop} {g g' : α → β}
    {r r' : Except Halt α} (h : Alike f near Q r r') (hg : ∀ a b, Q a b → R (g a) (g' b)) :
    Alike f near R (r.map g) (r'.map g') := by
  cases h with
  | ok hab => exact .ok (hg _ _ hab)
  | error hp => exact .error hp

theorem Alike.exists_ok {α : Type} {Q : α → α → Prop} {a : α} {r : Except Halt α}
    (h : Alike f near Q (.ok a) r) : ∃ b, r = .ok b ∧ Q a b := by
  cases h with
  | ok hab => exact ⟨_, rfl, hab⟩

theorem Alike.exists_error {α : Type} {Q : α → α → Prop} {e : Halt} {r : Except Halt α}
    (h : Alike f near Q (.error e) r) :
    ∃ place, r = .error ⟨e.fault.relocate f, place⟩ ∧ near e.location place := by
  cases h with
  | error hp => exact ⟨_, rfl, hp⟩

/-- Tokens that have moved are both at their end, or start with the same lexeme. -/
theorem Moved.cases (h : Moved f near ts ts') :
    (ts = [] ∧ ts' = []) ∨ ∃ lexeme place place' rest rest',
      ts = ⟨lexeme, place⟩ :: rest ∧ ts' = ⟨lexeme, place'⟩ :: rest' ∧ near place place' ∧
        (lexeme ≠ .newline → place' = f place) ∧ Moved f near rest rest' := by
  cases h with
  | nil => simp
  | @cons t t' rest rest' ht hrest =>
    obtain ⟨lexeme, place⟩ := t
    obtain ⟨lexeme', place'⟩ := t'
    obtain rfl := ht.lexeme
    exact .inr ⟨lexeme', place, place', rest, rest', rfl, rfl, ht.near, ht.place, hrest⟩

/-! ## Parts of items -/

theorem moved_skipNewlines (h : Moved f near ts ts') :
    Moved f near (skipNewlines ts) (skipNewlines ts') := by
  induction h with
  | nil => exact .nil
  | @cons t t' ts ts' ht hts ih =>
    obtain ⟨lexeme, place⟩ := t
    obtain ⟨lexeme', place'⟩ := t'
    obtain rfl := ht.lexeme
    cases lexeme' with
    | newline => exact ih
    | _ => exact .cons ht hts

/-- Reading stops at the same token, with the same words. -/
theorem alike_halt {α : Type} {Q : α → α → Prop} {fault : Lexeme → Fault}
    (hstop : near stop stop') (h : Moved f near ts ts')
    (hfault : ∀ lexeme, (fault lexeme).relocate f = fault lexeme) :
    Alike f near Q (halt stop ts fault) (halt stop' ts' fault) := by
  have halike {lexeme : Lexeme} {place place' : Location} (hp : near place place') :
      Alike f near Q (.error ⟨fault lexeme, place⟩) (.error ⟨fault lexeme, place'⟩) := by
    have : Alike f near Q (.error ⟨fault lexeme, place⟩)
      (.error ⟨(fault lexeme).relocate f, place'⟩) := .error hp
    rwa [hfault] at this
  rcases h.cases with ⟨rfl, rfl⟩ | ⟨lexeme, place, place', rest, rest', rfl, rfl, hp, -, -⟩
  · exact halike hstop
  · exact halike hp

/-- Two results of reading a part: it has been moved in its own way, if it has a place, and the
tokens that are left have moved. -/
abbrev MovedPart {α : Type} (move : α → α) (f : Location → Location)
    (near : Location → Location → Prop) : α × List Token → α × List Token → Prop :=
  fun r r' => r'.1 = move r.1 ∧ Moved f near r.2 r'.2

theorem someNames_eq (stop : Location) (role : NameRole) (ts : List Token) :
    someNames stop role ts =
      match skipNewlines ts with
      | ⟨.word name, place⟩ :: afterName =>
        if Word.isName name then
          match skipNewlines afterName with
          | ⟨.mark .comma _, _⟩ :: rest =>
            (someNames stop role rest).map fun r => (name :: r.1, r.2)
          | ⟨.mark .closeParen _, _⟩ :: rest => .ok ([name], rest)
          | rest => halt stop rest (.noSeparator role)
        else .error ⟨.badName role name, place⟩
      | rest => halt stop rest (.noName role) := by
  rw [someNames.eq_def]
  grind [Except.map]

/-- A name, and what may stand behind it. -/
theorem someNames_word {role : NameRole} {ws : List Token} {name : String}
    (hws : Grammar.Newlines ws) (hname : Word.isName name = true) (place : Location)
    (us : List Token) :
    someNames stop role (ws ++ ⟨.word name, place⟩ :: us) =
      match skipNewlines us with
      | ⟨.mark .comma _, _⟩ :: rest => (someNames stop role rest).map fun r => (name :: r.1, r.2)
      | ⟨.mark .closeParen _, _⟩ :: rest => .ok ([name], rest)
      | rest => halt stop rest (.noSeparator role) := by
  rw [someNames_eq, skipNewlines_append_cons (t := ⟨.word name, place⟩) hws Lexeme.noConfusion]
  simp only [hname, if_true]

theorem alike_someNames {role : NameRole} (hstop : near stop stop') (h : Moved f near ts ts') :
    Alike f near (MovedPart id f near) (someNames stop role ts) (someNames stop' role ts') := by
  -- by the number of tokens: a name and a comma are gone when reading goes on
  induction hn : ts.length using Nat.strong_induction_on generalizing ts ts' with
  | _ n ih =>
    subst hn
    rw [someNames_eq stop, someNames_eq stop']
    have hlen := length_skipNewlines_le ts
    have hs := moved_skipNewlines h
    rcases hs.cases with ⟨h₁, h₂⟩ | ⟨lexeme, place, place', us, us', h₁, h₂, hp, hplace, hus⟩
    · rw [h₁, h₂]
      exact alike_halt hstop .nil fun _ => rfl
    rw [h₁, h₂]
    rw [h₁] at hlen
    cases lexeme with
    | word name =>
      by_cases hname : Word.isName name
      · simp only [hname, if_true]
        have hlen' := length_skipNewlines_le us
        have hs' := moved_skipNewlines hus
        rcases hs'.cases with ⟨h₃, h₄⟩ | ⟨lexeme, found, found', vs, vs', h₃, h₄, hf, -, hvs⟩
        · rw [h₃, h₄]
          exact alike_halt hstop .nil fun _ => rfl
        rw [h₃, h₄]
        rw [h₃] at hlen'
        have hnext : Alike f near (MovedPart id f near) (someNames stop role vs)
            (someNames stop' role vs') :=
          ih vs.length (by simp only [List.length_cons] at hlen hlen'; omega) hvs rfl
        cases lexeme with
        | mark m text =>
          cases m with
          | comma => exact hnext.map fun a b hab => ⟨congrArg (List.cons name) hab.1, hab.2⟩
          | closeParen => exact .ok ⟨rfl, hvs⟩
          | _ => exact alike_halt hstop (h₃ ▸ h₄ ▸ hs') fun _ => rfl
        | _ => exact alike_halt hstop (h₃ ▸ h₄ ▸ hs') fun _ => rfl
      · simp only [hname, Bool.false_eq_true, if_false]
        exact .error hp
    | _ => exact alike_halt hstop (h₁ ▸ h₂ ▸ hs) fun _ => rfl

theorem alike_names {role : NameRole} (hstop : near stop stop') (h : Moved f near ts ts') :
    Alike f near (MovedPart id f near) (names stop role ts) (names stop' role ts') := by
  have hs := moved_skipNewlines h
  have hsome : Alike f near (MovedPart id f near) (someNames stop role (skipNewlines ts))
      (someNames stop' role (skipNewlines ts')) := alike_someNames hstop hs
  unfold names
  rcases hs.cases with ⟨h₁, h₂⟩ | ⟨lexeme, place, place', us, us', h₁, h₂, -, -, hus⟩
  · rw [h₁, h₂] at hsome ⊢
    exact hsome
  rw [h₁, h₂] at hsome ⊢
  cases lexeme with
  | mark m text =>
    cases m with
    | closeParen => exact .ok ⟨rfl, hus⟩
    | _ => exact hsome
  | _ => exact hsome

theorem movedPart_operand (h : Moved f near ts ts') :
    MovedPart id f near (operand ts) (operand ts') := by
  rcases h.cases with ⟨rfl, rfl⟩ | ⟨lexeme, place, place', us, us', rfl, rfl, -, -, hus⟩
  · exact ⟨rfl, h⟩
  cases lexeme with
  | word text => exact ⟨rfl, hus⟩
  | _ => exact ⟨rfl, h⟩

theorem alike_instruction {word : String} {place : Location} (hstop : near stop stop')
    (hplace : near place (f place)) (h : Moved f near ts ts') :
    Alike f near (MovedPart (Instruction.relocate f) f near)
      (instruction stop word place ts) (instruction stop' word (f place) ts') := by
  unfold instruction
  cases Opcode.ofWord? word with
  | some opcode =>
    obtain ⟨hoperand, hrest⟩ := movedPart_operand h
    exact .ok ⟨congrArg (Instruction.mk opcode none · (some (f place))) hoperand, hrest⟩
  | none =>
    by_cases hlabel : Word.isLabel word
    · simp only [hlabel, if_true]
      rcases h.cases with ⟨rfl, rfl⟩ | ⟨lexeme, found, found', us, us', rfl, rfl, hf, -, hus⟩
      · exact alike_halt hstop .nil fun _ => rfl
      cases lexeme with
      | word name =>
        cases hname : Opcode.ofWord? name with
        | some opcode =>
          obtain ⟨hoperand, hrest⟩ := movedPart_operand hus
          simp only [hname]
          have hlabelled := congrArg (Instruction.mk opcode (some word) · (some (f place))) hoperand
          exact .ok ⟨hlabelled, hrest⟩
        | none =>
          simp only [hname]
          exact .error hf
      | _ => exact alike_halt hstop h fun _ => rfl
    · simp only [hlabel, Bool.false_eq_true, if_false]
      exact .error hplace

theorem alike_head {name : String} {place : Location} (hstop : near stop stop')
    (h : Moved f near ts ts') :
    Alike f near (MovedPart (Head.relocate f) f near)
      (head stop name place ts) (head stop' name (f place) ts') := by
  have hnames : Alike f near (MovedPart id f near) (names stop .parameter ts)
      (names stop' .parameter ts') := alike_names hstop h
  unfold head
  generalize names stop .parameter ts = r at hnames
  generalize names stop' .parameter ts' = r' at hnames
  cases hnames with
  | error hp => exact .error hp
  | @ok a b hab =>
    obtain ⟨parameters, us⟩ := a
    obtain ⟨parameters', us'⟩ := b
    obtain ⟨rfl, hus⟩ := hab
    have hs := moved_skipNewlines hus
    dsimp only
    rcases hs.cases with ⟨h₁, h₂⟩ | ⟨lexeme, found, found', vs, vs', h₁, h₂, -, -, hvs⟩
    · rw [h₁, h₂]
      exact alike_halt hstop .nil fun _ => rfl
    rw [h₁, h₂]
    cases lexeme with
    | mark m text =>
      cases m with
      | equals =>
        have hs' := moved_skipNewlines hvs
        dsimp only
        rcases hs'.cases with ⟨h₃, h₄⟩ | ⟨lexeme, opened, opened', ws, ws', h₃, h₄, -, ho, hws⟩
        · rw [h₃, h₄]
          exact alike_halt hstop .nil fun _ => rfl
        rw [h₃, h₄]
        cases lexeme with
        | mark m text =>
          cases m with
          | openBrace =>
            obtain rfl := ho (by simp)
            exact .ok ⟨rfl, hws⟩
          | _ => exact alike_halt hstop (h₃ ▸ h₄ ▸ hs') fun _ => rfl
        | _ => exact alike_halt hstop (h₃ ▸ h₄ ▸ hs') fun _ => rfl
      | _ => exact alike_halt hstop (h₁ ▸ h₂ ▸ hs) fun _ => rfl
    | _ => exact alike_halt hstop (h₁ ▸ h₂ ▸ hs) fun _ => rfl

/-! ## Steps and whole programs -/

/-- Two steps that differ by a move. -/
inductive Front.Moved (f : Location → Location) (near : Location → Location → Prop) :
    Front → Front → Prop
  | finish : Moved f near .finish .finish
  | close {place : Location} {rest rest' : List Token} : near place (f place) →
      Reader.Moved f near rest rest' → Moved f near (.close place rest) (.close (f place) rest')
  | item {item : Item} {rest rest' : List Token} : Reader.Moved f near rest rest' →
      Moved f near (.item item rest) (.item (item.relocate f) rest')
  | opening {head : Head} {rest rest' : List Token} : Reader.Moved f near rest rest' →
      Moved f near (.opening head rest) (.opening (head.relocate f) rest')

/-- A step that starts with a word: the token after it tells what it is. -/
theorem alike_front_word {word : String} {place : Location} (hstop : near stop stop')
    (hplace : near place (f place)) {us us' : List Token} (hus : Moved f near us us')
    (h : skipNewlines ts = ⟨.word word, place⟩ :: us)
    (h' : skipNewlines ts' = ⟨.word word, f place⟩ :: us') :
    Alike f near (Front.Moved f near) (front stop ts) (front stop' ts') := by
  have hinstruction : Alike f near (Front.Moved f near)
      ((instruction stop word place us).map fun r => .item (.instruction r.1) r.2)
      ((instruction stop' word (f place) us').map fun r => .item (.instruction r.1) r.2) :=
    (alike_instruction hstop hplace hus).map fun a b hab => by
      obtain ⟨i, rest⟩ := b
      obtain ⟨rfl, hrest⟩ := hab
      exact .item hrest
  unfold front
  rw [h, h']
  rcases hus.cases with ⟨rfl, rfl⟩ | ⟨lexeme, found, found', vs, vs', rfl, rfl, -, -, hvs⟩
  · exact hinstruction
  cases lexeme with
  | mark m text =>
    cases m with
    | openParen =>
      by_cases hname : Word.isName word
      · simp only [hname, if_true]
        refine (alike_head hstop hvs).map fun a b hab => ?_
        obtain ⟨hd, rest⟩ := b
        obtain ⟨rfl, hrest⟩ := hab
        exact .opening hrest
      · simp only [hname, Bool.false_eq_true, if_false]
        exact .error hplace
    | callOpen =>
      by_cases hname : Word.isName word
      · simp only [hname, if_true]
        refine (alike_names hstop hvs).map fun a b hab => ?_
        obtain ⟨arguments, rest⟩ := b
        obtain ⟨rfl, hrest⟩ := hab
        exact .item hrest
      · simp only [hname, Bool.false_eq_true, if_false]
        exact .error hplace
    | _ => exact hinstruction
  | _ => exact hinstruction

theorem alike_front (hstop : near stop stop') (h : Moved f near ts ts') :
    Alike f near (Front.Moved f near) (front stop ts) (front stop' ts') := by
  have hs := moved_skipNewlines h
  rcases hs.cases with ⟨h₁, h₂⟩ | ⟨lexeme, place, place', us, us', h₁, h₂, hp, hplace, hus⟩
  · simp only [front, h₁, h₂]
    exact .ok .finish
  cases lexeme with
  | word word =>
    obtain rfl := hplace (by simp)
    exact alike_front_word hstop hp hus h₁ h₂
  | comment text =>
    obtain rfl := hplace (by simp)
    simp only [front, h₁, h₂]
    exact .ok (.item hus)
  | mark m text =>
    obtain rfl := hplace (by simp)
    unfold front
    rw [h₁, h₂]
    cases m with
    | closeBrace => exact .ok (.close hp hus)
    | _ => exact .error hp
  | newline =>
    simp only [front, h₁, h₂]
    exact .error hp
  | endOfInput =>
    simp only [front, h₁, h₂]
    exact .error hp

theorem relocate_declare (hd : Head) (body : List Item) :
    (hd.declare body).relocate f = (hd.relocate f).declare (body.map (Item.relocate f)) := by
  simp [Head.declare, Item.mapPlace, Program.mapPlace_eq_map, Head.relocate]

/-- Reading tokens that have moved gives a program that has moved, or the same fault. -/
theorem alike_build {frames : List Frame} {items : List Item} (hstop : near stop stop')
    (h : Moved f near ts ts') :
    Alike f near (fun p p' => p' = p.map (Item.relocate f)) (build stop frames items ts).outcome
      (build stop' (frames.map (Frame.relocate f)) (items.map (Item.relocate f)) ts').outcome := by
  fun_induction build stop frames items ts generalizing ts' with
  | case1 frames items ts e hfront =>
    obtain ⟨place, hfront', hp⟩ := (hfront ▸ alike_front hstop h).exists_error
    rw [build_error hfront']
    exact .error hp
  | case2 items ts hfront =>
    obtain ⟨_, hfront', ⟨⟩⟩ := (hfront ▸ alike_front hstop h).exists_ok
    rw [List.map_nil, build_finish hfront', ← List.map_reverse]
    exact .ok rfl
  | case3 items ts hfront frame frames =>
    obtain ⟨_, hfront', ⟨⟩⟩ := (hfront ▸ alike_front hstop h).exists_ok
    rw [List.map_cons, build_unclosed hfront']
    exact .error hstop
  | case4 items ts place rest hfront =>
    obtain ⟨_, hfront', ⟨⟩⟩ := (hfront ▸ alike_front hstop h).exists_ok
    rw [List.map_nil, build_stray hfront']
    exact .error ‹_›
  | case5 items ts place rest hfront hd before frames ih =>
    obtain ⟨_, hfront', hm⟩ := (hfront ▸ alike_front hstop h).exists_ok
    cases hm with
    | close _ hrest =>
      simp only [List.unattach_reverse, List.unattach_attach] at ih
      rw [List.map_cons, Frame.relocate, build_close hfront', ← List.map_reverse,
        ← relocate_declare, ← List.map_cons]
      exact ih hrest
  | case6 frames items ts item rest hfront ih =>
    obtain ⟨_, hfront', hm⟩ := (hfront ▸ alike_front hstop h).exists_ok
    cases hm with
    | item hrest =>
      rw [build_item hfront']
      exact ih hrest
  | case7 frames items ts hd rest hfront ih =>
    obtain ⟨_, hfront', hm⟩ := (hfront ▸ alike_front hstop h).exists_ok
    cases hm with
    | opening hrest =>
      rw [build_opening hfront']
      exact ih hrest

end Moved

end Reader

end MacroAsm
