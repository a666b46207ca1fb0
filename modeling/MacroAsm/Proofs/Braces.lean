import Mathlib.Algebra.Ring.Int.Defs
import MacroAsm.Proofs.Reading

/-!
# MacroAsm.Proofs.Braces

Braces match as brackets do.

* `Braced` — how the braces among some tokens lie in each other, without a word about
  reading; `depth` counts those that are open, so no list nests in two ways
  (`Braced.unique`);
* `Opens` — what has been read so far leaves open the bodies that the reader takes to be
  open, each from its own brace on; every step keeps this up (`opens_of_build`);
* `braces_match` — from tokens to the program, or to the brace that has no partner.
-/

namespace MacroAsm

/-- A body with the bodies inside it. -/
inductive Nest where
  | body (inside : List Nest)

mutual
/-- The body that an item has, if it is a declaration. -/
def Item.nests : Item → List Nest
  | .instruction _ => []
  | .call _ => []
  | .comment .. => []
  | .declaration _ _ body _ => [.body (Program.nests body)]

/-- The bodies of a program, in the order of their declarations. -/
def Program.nests : List Item → List Nest
  | [] => []
  | x :: xs => x.nests ++ Program.nests xs
end

namespace Grammar

/-! ## Matching -/

/-- The braces among some tokens match, and the bodies between them lie in each other as
`nests` says. -/
inductive Braced : List Token → List Nest → Prop where
  | nil : Braced [] []
  | other {t : Token} {ts : List Token} {nests : List Nest} :
      ¬ t.Is .openBrace → ¬ t.Is .closeBrace → Braced ts nests → Braced (t :: ts) nests
  | body {left right : Token} {inner ts : List Token} {inside nests : List Nest} :
      left.Is .openBrace → Braced inner inside → right.Is .closeBrace → Braced ts nests →
      Braced (left :: (inner ++ right :: ts)) (.body inside :: nests)

/-- The braces among some tokens match. -/
def Balanced (ts : List Token) : Prop := ∃ nests, Braced ts nests

/-- Among the tokens after an opening brace is the closing brace that matches it. -/
def ClosedIn (after : List Token) : Prop :=
  ∃ inner right rest, after = inner ++ right :: rest ∧ right.Is .closeBrace ∧ Balanced inner

/-- Among the tokens before a closing brace is the opening brace that matches it. -/
def OpenedIn (before : List Token) : Prop :=
  ∃ rest left inner, before = rest ++ left :: inner ∧ left.Is .openBrace ∧ Balanced inner

/-- The innermost opening brace that nothing closes: all braces that are opened after it are
closed. -/
def InnermostUnclosed (ts : List Token) (left : Token) : Prop :=
  ∃ outer inner, ts = outer ++ left :: inner ∧ left.Is .openBrace ∧ ¬ ClosedIn inner ∧
    ∀ us t vs, inner = us ++ t :: vs → t.Is .openBrace → ClosedIn vs

/-- The first closing brace that nothing opens: all braces that are closed before it have been
opened. -/
def FirstUnopened (ts : List Token) (right : Token) : Prop :=
  ∃ before rest, ts = before ++ right :: rest ∧ right.Is .closeBrace ∧ ¬ OpenedIn before ∧
    ∀ us t vs, before = us ++ t :: vs → t.Is .closeBrace → OpenedIn us

section

variable {t left right : Token} {ts us vs inner : List Token} {nests nests' : List Nest}

theorem braced_of_inner (h : ∀ t ∈ ts, Inner t) : Braced ts [] := by
  induction ts with
  | nil => exact .nil
  | cons t ts ih =>
    obtain ⟨ht, hts⟩ := List.forall_mem_cons.mp h
    exact .other ht.noOpen ht.noClose (ih hts)

theorem Braced.append (hts : Braced ts nests) (hus : Braced us nests') :
    Braced (ts ++ us) (nests ++ nests') := by
  induction hts with
  | nil => exact hus
  | other hopen hclose _ ih => exact .other hopen hclose ih
  | body hleft hinner hright _ _ ih =>
    rw [List.cons_append, List.append_assoc, List.cons_append]
    exact .body hleft hinner hright ih

theorem Balanced.append (hts : Balanced ts) (hus : Balanced us) : Balanced (ts ++ us) := by
  obtain ⟨_, hts⟩ := hts
  obtain ⟨_, hus⟩ := hus
  exact ⟨_, hts.append hus⟩

theorem balanced_of_inner (h : ∀ t ∈ ts, Inner t) : Balanced ts := ⟨_, braced_of_inner h⟩

theorem Balanced.body (hleft : left.Is .openBrace) (h : Balanced ts)
    (hright : right.Is .closeBrace) : Balanced (left :: (ts ++ [right])) := by
  obtain ⟨_, hts⟩ := h
  exact ⟨_, .body hleft hts hright .nil⟩

/-! ## Counting -/

/-- What a token adds to the number of open braces. -/
def weight (t : Token) : Int :=
  match t.lexeme with
  | .mark .openBrace _ => 1
  | .mark .closeBrace _ => -1
  | _ => 0

/-- The opening braces among some tokens less the closing ones. -/
def depth (ts : List Token) : Int := (ts.map weight).sum

theorem weight_of_open (h : t.Is .openBrace) : weight t = 1 := by
  obtain ⟨text, place, rfl⟩ := h.exists_eq
  rfl

theorem weight_of_close (h : t.Is .closeBrace) : weight t = -1 := by
  obtain ⟨text, place, rfl⟩ := h.exists_eq
  rfl

theorem weight_of_other (hopen : ¬ t.Is .openBrace) (hclose : ¬ t.Is .closeBrace) :
    weight t = 0 := by
  unfold weight
  split
  · exact absurd ⟨_, ‹_›⟩ hopen
  · exact absurd ⟨_, ‹_›⟩ hclose
  · rfl

@[simp] theorem depth_nil : depth [] = 0 := rfl

@[simp] theorem depth_cons (t : Token) (ts : List Token) :
    depth (t :: ts) = weight t + depth ts := by
  simp [depth]

@[simp] theorem depth_append (ts us : List Token) : depth (ts ++ us) = depth ts + depth us := by
  simp [depth]

theorem Braced.depth_eq (h : Braced ts nests) : depth ts = 0 := by
  induction h with
  | nil => rfl
  | other hopen hclose _ ih => simp [weight_of_other hopen hclose, ih]
  | body hleft _ hright _ ihinner ih =>
    simp [weight_of_open hleft, weight_of_close hright, ihinner, ih]

/-- No more braces are closed than have been opened before. -/
theorem Braced.depth_take_nonneg (h : Braced ts nests) (k : Nat) : 0 ≤ depth (ts.take k) := by
  induction h generalizing k with
  | nil => simp
  | other hopen hclose _ ih =>
    cases k with
    | zero => simp
    | succ k => simpa [weight_of_other hopen hclose] using ih k
  | @body left right inner ts inside nests hleft hinner hright _ ihinner ih =>
    cases k with
    | zero => simp
    | succ k =>
      rw [List.take_succ_cons, List.take_append, depth_cons, depth_append, weight_of_open hleft]
      have hin := ihinner k
      -- the prefix ends inside the body, or the body is part of it
      cases hk : k - inner.length with
      | zero =>
        rw [List.take_zero, depth_nil]
        omega
      | succ m =>
        have hall : inner.take k = inner := List.take_of_length_le (by omega)
        have hout := ih m
        rw [hall, hinner.depth_eq, List.take_succ_cons, depth_cons, weight_of_close hright]
        omega

theorem Balanced.depth_eq (h : Balanced ts) : depth ts = 0 := by
  obtain ⟨_, hts⟩ := h
  exact hts.depth_eq

theorem Balanced.depth_nonneg (h : Balanced (us ++ vs)) : 0 ≤ depth us := by
  obtain ⟨_, hts⟩ := h
  simpa using hts.depth_take_nonneg us.length

/-! ## Partners -/

/-- Nothing in balanced tokens closes a brace before them. -/
theorem Balanced.not_closedIn (h : Balanced ts) : ¬ ClosedIn ts := by
  rintro ⟨inner, right, rest, rfl, hright, hinner⟩
  rw [List.append_cons] at h
  have hdepth := h.depth_nonneg
  simp [hinner.depth_eq, weight_of_close hright] at hdepth

/-- Nothing in balanced tokens opens a brace behind them. -/
theorem Balanced.not_openedIn (h : Balanced ts) : ¬ OpenedIn ts := by
  rintro ⟨rest, left, inner, rfl, hleft, hinner⟩
  have hdepth := h.depth_nonneg
  have hall := h.depth_eq
  simp only [depth_append, depth_cons, hinner.depth_eq, weight_of_open hleft] at hall
  omega

theorem ClosedIn.append (h : ClosedIn ts) (us : List Token) : ClosedIn (ts ++ us) := by
  obtain ⟨inner, right, rest, rfl, hright, hinner⟩ := h
  exact ⟨inner, right, rest ++ us, by simp, hright, hinner⟩

theorem OpenedIn.prepend (h : OpenedIn ts) (us : List Token) : OpenedIn (us ++ ts) := by
  obtain ⟨rest, left, inner, rfl, hleft, hinner⟩ := h
  exact ⟨us ++ rest, left, inner, by simp, hleft, hinner⟩

/-- In balanced tokens every opening brace has its partner. -/
theorem Braced.closedIn (h : Braced ts nests) (hts : ts = us ++ t :: vs) (ht : t.Is .openBrace) :
    ClosedIn vs := by
  induction h generalizing us vs with
  | nil => simp at hts
  | other hopen _ _ ih =>
    cases us with
    | nil =>
      cases hts
      exact absurd ht hopen
    | cons u us => exact ih (List.cons.inj hts).2
  | @body left right inner ts inside nests hleft hinner hright _ ihinner ih =>
    cases us with
    | nil =>
      cases hts
      exact ⟨inner, right, ts, rfl, hright, inside, hinner⟩
    | cons u us =>
      rcases List.append_eq_append_iff.mp (List.cons.inj hts).2 with ⟨ws, rfl, hws⟩ | ⟨ws, rfl, hws⟩
      · cases ws with
        | nil =>
          cases hws
          cases ht.unique hright
        | cons w ws => exact ih (List.cons.inj hws).2
      · cases ws with
        | nil =>
          cases hws
          cases ht.unique hright
        | cons w ws =>
          cases hws
          exact (ihinner rfl).append _

/-- In balanced tokens every closing brace has its partner. -/
theorem Braced.openedIn (h : Braced ts nests) (hts : ts = us ++ t :: vs) (ht : t.Is .closeBrace) :
    OpenedIn us := by
  induction h generalizing us vs with
  | nil => simp at hts
  | other _ hclose _ ih =>
    cases us with
    | nil =>
      cases hts
      exact absurd ht hclose
    | cons u us => exact (ih (List.cons.inj hts).2).prepend [u]
  | @body left right inner ts inside nests hleft hinner hright _ ihinner ih =>
    cases us with
    | nil =>
      cases hts
      cases ht.unique hleft
    | cons u us =>
      have hpartner : OpenedIn (left :: inner) := ⟨[], left, inner, rfl, hleft, inside, hinner⟩
      obtain ⟨rfl, hrest⟩ := List.cons.inj hts
      rcases List.append_eq_append_iff.mp hrest with ⟨ws, rfl, hws⟩ | ⟨ws, rfl, hws⟩
      · cases ws with
        | nil => simpa using hpartner
        | cons w ws =>
          have hlater := (ih (List.cons.inj hws).2).prepend (left :: (inner ++ [w]))
          simpa using hlater
      · cases ws with
        | nil => simpa using hpartner
        | cons w ws =>
          cases hws
          exact (ihinner rfl).prepend [left]

/-- A brace has one partner at most. -/
theorem eq_of_partners {inner' ts' : List Token} {right' : Token} (hinner : Balanced inner)
    (hinner' : Balanced inner') (hright : right.Is .closeBrace) (hright' : right'.Is .closeBrace)
    (h : inner ++ right :: ts = inner' ++ right' :: ts') : inner = inner' ∧ ts = ts' := by
  rcases List.append_eq_append_iff.mp h with ⟨ws, rfl, hws⟩ | ⟨ws, rfl, hws⟩
  · cases ws with
    | nil => simpa using (List.cons.inj hws).2
    | cons w ws =>
      cases hws
      exact (hinner'.not_closedIn ⟨inner, right, ws, rfl, hright, hinner⟩).elim
  · cases ws with
    | nil => simpa using (List.cons.inj hws).2.symm
    | cons w ws =>
      cases hws
      exact (hinner.not_closedIn ⟨inner', right', ws, rfl, hright', hinner'⟩).elim

/-- **Tokens nest in one way.** -/
theorem Braced.unique (h : Braced ts nests) (h' : Braced ts nests') : nests = nests' := by
  induction h generalizing nests' with
  | nil =>
    cases h'
    rfl
  | other hopen hclose _ ih =>
    cases h' with
    | other _ _ h' => exact ih h'
    | body hleft => exact absurd hleft hopen
  | @body left right inner ts inside nests hleft hinner hright _ ihinner ih =>
    generalize hus : left :: (inner ++ right :: ts) = us at h'
    cases h' with
    | nil => cases hus
    | other hopen =>
      cases hus
      exact absurd hleft hopen
    | body _ hinner' hright' hts' =>
      obtain ⟨rfl, rfl⟩ := eq_of_partners ⟨_, hinner⟩ ⟨_, hinner'⟩ hright hright'
        (List.cons.inj hus).2
      rw [ihinner hinner', ih hts']

end

/-! ## Programs -/

theorem Leaf.nests_eq_nil {xs rest : List Token} {x : Item} (h : Leaf xs x rest) :
    x.nests = [] := by
  cases h <;> rw [Item.nests]

/-- **What spells a program nests as its bodies do.** -/
theorem Body.braced {ts : List Token} {p : Program} (h : Body ts p) :
    Braced ts (Program.nests p) := by
  induction h with
  | nil => exact .nil
  | newline _ ih => exact .other (by simp [Token.Is]) (by simp [Token.Is]) ih
  | leaf hleaf _ ih =>
    rw [Program.nests, hleaf.nests_eq_nil]
    exact (braced_of_inner hleaf.inner).append ih
  | declaration hopening _ hbrace _ ihbody ih =>
    obtain ⟨xs, left, rfl, hxs, hleft⟩ := hopening.exists_inner
    rw [Program.nests, Item.nests, List.append_assoc]
    exact (braced_of_inner hxs).append (.body hleft ihbody hbrace ih)

end Grammar

/-! ## Faults -/

theorem Text.getLast?_mention (text : String) : (mention text).toList.getLast? = some '\'' := by
  simp only [mention, String.toList_append, List.getLast?_append]
  simp

/-- A lexeme that is mentioned stands between quotes. -/
theorem Lexeme.getLast?_describe_ne (lexeme : Lexeme) :
    lexeme.describe.toList.getLast? ≠ some 'y' := by
  cases lexeme with
  | word text => simp [describe, Text.getLast?_mention]
  | mark m text => simp [describe, Text.getLast?_mention]
  | newline => simp [describe]
  | endOfInput => simp [describe]
  | comment text => simp [describe]

namespace Fault

/-- Faults that are about the braces of a body. -/
def IsBrace : Fault → Prop
  | openBody _ => True
  | strayBrace => True
  | _ => False

theorem message_foreign (foreign : Foreign) :
    ∃ rest, (Fault.foreign foreign).message = "unexpected character " ++ rest := by
  cases foreign with
  | bareBang => exact ⟨"'!' (macro calls are written NAME!(...))", by decide⟩
  | character c => exact ⟨_, rfl⟩

theorem exists_openBody_of_message {fault : Fault}
    (h : fault.message = "unterminated macro body, expected '\x7d'") :
    ∃ opened, fault = .openBody opened := by
  rw [← String.toList_inj] at h
  cases fault with
  | openBody opened => exact ⟨opened, rfl⟩
  | foreign foreign =>
    obtain ⟨rest, hrest⟩ := message_foreign foreign
    rw [hrest] at h
    simp at h
  | _ =>
    delta message at h
    simp at h

theorem eq_strayBrace_of_message {fault : Fault}
    (h : fault.message = "unexpected '\x7d' outside of a macro body") : fault = .strayBrace := by
  rw [← String.toList_inj] at h
  cases fault with
  | strayBrace => rfl
  | foreign foreign =>
    obtain ⟨rest, hrest⟩ := message_foreign foreign
    rw [hrest] at h
    simp at h
  | unexpected found =>
    delta message at h
    have hfound : found.describe.toList = "'\x7d' outside of a macro body".toList := by
      simpa using h
    have hlast := found.getLast?_describe_ne
    rw [hfound] at hlast
    simp at hlast
  | _ =>
    delta message at h
    simp at h

end Fault

namespace Reader

open Grammar

variable {stop : Location} {ts us rest seen : List Token} {e : Halt}

theorem not_isBrace_of_someNames {role : NameRole} (h : someNames stop role ts = .error e) :
    ¬ e.fault.IsBrace := by
  fun_induction someNames stop role ts with
  | case2 ts name place afterName hskip hname text found more hcomma e' hmore ih =>
    cases h
    exact ih hmore
  | _ => cases h <;> exact id

theorem not_isBrace_of_names {role : NameRole} (h : names stop role ts = .error e) :
    ¬ e.fault.IsBrace := by
  unfold names at h
  split at h
  · cases h
  · exact not_isBrace_of_someNames h

theorem not_isBrace_of_instruction {word : String} {place : Location}
    (h : instruction stop word place ts = .error e) : ¬ e.fault.IsBrace := by
  unfold instruction at h
  split at h
  · cases h
  · repeat' split at h
    all_goals cases h
    all_goals exact id

theorem not_isBrace_of_head {name : String} {place : Location}
    (h : head stop name place ts = .error e) : ¬ e.fault.IsBrace := by
  unfold head at h
  split at h
  · rename_i hnames
    cases h
    exact not_isBrace_of_names hnames
  · repeat' split at h
    all_goals cases h
    all_goals exact id

/-- A step that fails does not complain about braces. -/
theorem not_isBrace_of_front (h : front stop ts = .error e) : ¬ e.fault.IsBrace := by
  unfold front at h
  split at h
  · cases h
  · cases h
  · cases h
  · split at h
    · exact not_isBrace_of_head (map_eq_error_iff.mp h)
    · cases h
      exact id
  · split at h
    · exact not_isBrace_of_names (map_eq_error_iff.mp h)
    · cases h
      exact id
  · exact not_isBrace_of_instruction (map_eq_error_iff.mp h)
  · cases h
    exact id

/-- A step opens a body at its only brace. -/
theorem exists_brace_of_front {hd : Head} (h : front stop ts = .ok (.opening hd rest)) :
    ∃ xs brace, ts = xs ++ brace :: rest ∧ (∀ t ∈ xs, Inner t) ∧ brace.Is .openBrace ∧
      brace.location = hd.opened := by
  obtain ⟨name, parameters, place, opened⟩ := hd
  cases Shape.of_front h with
  | @opening ws xs _ _ hws hopening =>
    obtain ⟨ys, brace, rfl, hfront⟩ := front_opening hopening
    obtain ⟨zs, left, heq, hzs, hleft⟩ := hopening.exists_inner
    obtain ⟨rfl, rfl⟩ : ys = zs ∧ brace = left := by simpa using heq
    rw [front_newlines hws, hfront] at h
    cases h
    exact ⟨ws ++ ys, brace, by simp, List.forall_mem_append.mpr ⟨hws.inner, hzs⟩, hleft, rfl⟩

/-! ## Open bodies -/

section

variable {frames : List Frame} {items : List Item}

/-- What has been seen leaves exactly the bodies in `frames` open, each from its own brace on. -/
def Opens : List Frame → List Token → Prop
  | [], seen => Balanced seen
  | frame :: frames, seen =>
      ∃ outer left inner, seen = outer ++ left :: inner ∧ Opens frames outer ∧
        left.Is .openBrace ∧ left.location = frame.head.opened ∧ Balanced inner

theorem Opens.append (h : Opens frames seen) (hts : Balanced ts) : Opens frames (seen ++ ts) := by
  cases frames with
  | nil => exact Balanced.append h hts
  | cons frame frames =>
    obtain ⟨outer, left, inner, rfl, houter, hleft, hplace, hinner⟩ := h
    exact ⟨outer, left, inner ++ ts, by simp, houter, hleft, hplace, hinner.append hts⟩

theorem Opens.opening {frame : Frame} {left : Token} (h : Opens frames seen)
    (hleft : left.Is .openBrace) (hplace : left.location = frame.head.opened) :
    Opens (frame :: frames) (seen ++ [left]) :=
  ⟨seen, left, [], rfl, h, hleft, hplace, [], .nil⟩

theorem Opens.close {frame : Frame} {right : Token} (h : Opens (frame :: frames) seen)
    (hright : right.Is .closeBrace) : Opens frames (seen ++ [right]) := by
  obtain ⟨outer, left, inner, rfl, houter, hleft, -, hinner⟩ := h
  rw [List.append_assoc, List.cons_append]
  exact houter.append (hinner.body hleft hright)

/-- The reader complains about braces as they stand: at the end, about the innermost body that
is open; at a closing brace, if none is open. -/
theorem opens_of_build (hseen : Opens frames seen)
    (h : (build stop frames items ts).outcome = .error e) (hfault : e.fault.IsBrace) :
    (∃ frame frames', e.fault = .openBody frame.head.opened ∧
      Opens (frame :: frames') (seen ++ ts)) ∨
    ∃ us right rest, e.fault = .strayBrace ∧ seen ++ ts = us ++ right :: rest ∧
      right.Is .closeBrace ∧ e.location = right.location ∧ Balanced us := by
  -- along the reading: what a step has read is added to what has been seen
  fun_induction build stop frames items ts generalizing seen with
  | case1 frames items ts e' hfront =>
    cases h
    exact absurd hfault (not_isBrace_of_front hfront)
  | case2 => cases h
  | case3 items ts hfront frame frames =>
    cases h
    cases Shape.of_front hfront with
    | finish hws => exact .inl ⟨frame, frames, rfl, hseen.append (balanced_of_inner hws.inner)⟩
  | case4 items ts place rest hfront =>
    cases h
    cases Shape.of_front hfront with
    | @close ws _ brace hws hbrace =>
      exact .inr ⟨seen ++ ws, brace, rest, rfl, by simp, hbrace, rfl,
        hseen.append (balanced_of_inner hws.inner)⟩
  | case5 items ts place rest hfront hd before frames ih =>
    rw [List.unattach_reverse, List.unattach_attach] at ih
    cases Shape.of_front hfront with
    | @close ws _ brace hws hbrace =>
      have hnext : Opens frames (seen ++ ws ++ [brace]) :=
        (hseen.append (balanced_of_inner hws.inner)).close hbrace
      simpa using ih hnext h
  | case6 frames items ts x rest hfront ih =>
    cases Shape.of_front hfront with
    | @item ws xs _ _ hws hleaf =>
      have hnext : Opens frames (seen ++ ws ++ xs) :=
        (hseen.append (balanced_of_inner hws.inner)).append (balanced_of_inner hleaf.inner)
      simpa using ih hnext h
  | case7 frames items ts hd rest hfront ih =>
    obtain ⟨xs, left, rfl, hxs, hleft, hplace⟩ := exists_brace_of_front hfront
    have hnext : Opens (⟨hd, items⟩ :: frames) (seen ++ xs ++ [left]) :=
      (hseen.append (balanced_of_inner hxs)).opening hleft hplace
    simpa using ih hnext h

end

/-- The body that the reader takes to be open starts at the brace that nothing closes. -/
theorem Opens.innermostUnclosed {frame : Frame} {frames : List Frame}
    (h : Opens (frame :: frames) ts) :
    ∃ left, InnermostUnclosed ts left ∧ left.location = frame.head.opened := by
  obtain ⟨outer, left, inner, rfl, -, hleft, hplace, hinner⟩ := h
  obtain ⟨nests, hnests⟩ := hinner
  exact ⟨left, ⟨outer, inner, rfl, hleft, Balanced.not_closedIn ⟨nests, hnests⟩,
    fun _ _ _ => hnests.closedIn⟩, hplace⟩

theorem firstUnopened_of_balanced {right : Token} (hts : Balanced ts)
    (hright : right.Is .closeBrace) (rest : List Token) :
    FirstUnopened (ts ++ right :: rest) right := by
  obtain ⟨nests, hnests⟩ := hts
  exact ⟨ts, rest, rfl, hright, Balanced.not_openedIn ⟨nests, hnests⟩,
    fun _ _ _ => hnests.openedIn⟩

end Reader

open Grammar Program

/-- **Braces match as brackets do.**  If a list of tokens is read, the braces before its end
match, and they lie in each other as the bodies of the program do, and in no other way.  If the
end comes too early, the hint names the innermost opening brace that nothing closes; if a
closing brace comes too early, the error is at the first one that nothing opens. -/
theorem braces_match (file : String) (source : Option String) (tokens : List Token) :
    let before := tokens.takeWhile fun t => t.lexeme != .endOfInput
    let outcome := (ofTokens file source tokens).outcome
    (∀ p, outcome = .ok p →
      Balanced before ∧ ∀ nests, Braced before nests ↔ nests = Program.nests p) ∧
    (∀ d, outcome = .error d → d.message = "unterminated macro body, expected '\x7d'" →
      ∃ left, InnermostUnclosed before left ∧
        d.hint = some ("the body opened at " ++ left.location.text ++ " is never closed")) ∧
    ∀ d, outcome = .error d → d.message = "unexpected '\x7d' outside of a macro body" →
      ∃ right, FirstUnopened before right ∧ d.location = some right.location := by
  intro before outcome
  have hstart : Reader.Opens [] [] := ⟨[], .nil⟩
  refine ⟨fun p hread => ?_, fun d hread hmessage => ?_, fun d hread hmessage => ?_⟩
  · have hbody : Body before p := ofTokens_eq_ok_iff.mp hread
    refine ⟨⟨_, hbody.braced⟩, fun nests => ⟨fun h => h.unique hbody.braced, ?_⟩⟩
    rintro rfl
    exact hbody.braced
  · obtain ⟨halt, hhalt, rfl⟩ := ofTokens_eq_error hread
    obtain ⟨opened, hfault⟩ := Fault.exists_openBody_of_message hmessage
    rcases Reader.opens_of_build hstart hhalt (by rw [hfault]; trivial) with
      ⟨frame, frames, hopen, hopens⟩ | ⟨us, right, rest, hstray, -⟩
    · obtain ⟨left, hleft, hplace⟩ := hopens.innermostUnclosed
      refine ⟨left, hleft, ?_⟩
      rw [hplace]
      exact congrArg Fault.hint? hopen
    · rw [hfault] at hstray
      cases hstray
  · obtain ⟨halt, hhalt, rfl⟩ := ofTokens_eq_error hread
    have hfault := Fault.eq_strayBrace_of_message hmessage
    rcases Reader.opens_of_build hstart hhalt (by rw [hfault]; trivial) with
      ⟨frame, frames, hopen, -⟩ | ⟨us, right, rest, -, hsplit, hright, hplace, hus⟩
    · rw [hfault] at hopen
      cases hopen
    · refine ⟨right, ?_, congrArg some hplace⟩
      have hbefore : before = us ++ right :: rest := hsplit
      rw [hbefore]
      exact Reader.firstUnopened_of_balanced hus hright rest

/-- A declaration inside the body of another one. -/
def nestedTokens : List Token :=
  [⟨.word "A", ⟨"f", 1, 1⟩⟩, ⟨.mark .openParen "(", ⟨"f", 1, 2⟩⟩,
   ⟨.mark .closeParen ")", ⟨"f", 1, 3⟩⟩, ⟨.mark .equals "=", ⟨"f", 1, 4⟩⟩,
   ⟨.mark .openBrace "\x7b", ⟨"f", 1, 5⟩⟩, ⟨.word "B", ⟨"f", 2, 1⟩⟩,
   ⟨.mark .openParen "(", ⟨"f", 2, 2⟩⟩, ⟨.mark .closeParen ")", ⟨"f", 2, 3⟩⟩,
   ⟨.mark .equals "=", ⟨"f", 2, 4⟩⟩, ⟨.mark .openBrace "\x7b", ⟨"f", 2, 5⟩⟩,
   ⟨.mark .closeBrace "\x7d", ⟨"f", 2, 6⟩⟩, ⟨.mark .closeBrace "\x7d", ⟨"f", 3, 1⟩⟩]

theorem read_nestedTokens : ∃ p, (ofTokens "f" none nestedTokens).outcome = .ok p ∧
    Program.nests p = [.body [.body []]] := by
  have hinput : Reader.Input.ofTokens "f" nestedTokens = ⟨nestedTokens, ⟨"f", 3, 1⟩⟩ := by decide
  rw [ofTokens, hinput, Reader.read]
  dsimp only [nestedTokens]
  rw [Reader.build_opening (by rfl), Reader.build_opening (by rfl), Reader.build_close rfl,
    Reader.build_close rfl, Reader.build_nil]
  exact ⟨_, rfl, rfl⟩

/-- Without the last brace, only the outer body is open. -/
theorem read_nestedTokens_unclosed : ∃ d,
    (ofTokens "f" none (nestedTokens.take 11)).outcome = .error d ∧
      d.message = "unterminated macro body, expected '\x7d'" ∧
      d.hint =
        some ("the body opened at " ++ (Location.mk "f" 1 5).text ++ " is never closed") := by
  have hinput : Reader.Input.ofTokens "f" (nestedTokens.take 11) =
      ⟨nestedTokens.take 11, ⟨"f", 2, 6⟩⟩ := by decide
  rw [ofTokens, hinput, Reader.read]
  dsimp only [nestedTokens, List.take]
  rw [Reader.build_opening (by rfl), Reader.build_opening (by rfl), Reader.build_close rfl,
    Reader.build_unclosed rfl]
  exact ⟨_, rfl, rfl, rfl⟩

/-- A brace too many closes nothing. -/
theorem read_nestedTokens_overclosed : ∃ d,
    (ofTokens "f" none (nestedTokens ++ [⟨.mark .closeBrace "\x7d", ⟨"f", 3, 2⟩⟩])).outcome =
        .error d ∧
      d.message = "unexpected '\x7d' outside of a macro body" ∧
      d.location = some ⟨"f", 3, 2⟩ := by
  have hinput : Reader.Input.ofTokens "f"
      (nestedTokens ++ [⟨.mark .closeBrace "\x7d", ⟨"f", 3, 2⟩⟩]) =
        ⟨nestedTokens ++ [⟨.mark .closeBrace "\x7d", ⟨"f", 3, 2⟩⟩], ⟨"f", 3, 2⟩⟩ := by decide
  rw [ofTokens, hinput, Reader.read]
  dsimp only [nestedTokens, List.cons_append, List.nil_append]
  rw [Reader.build_opening (by rfl), Reader.build_opening (by rfl), Reader.build_close rfl,
    Reader.build_close rfl, Reader.build_stray rfl]
  exact ⟨_, rfl, rfl, rfl⟩

/-- `nestedTokens` as it is, without its last brace, and with one more. -/
theorem braces_of_nestedTokens :
    (∃ p, (ofTokens "f" none nestedTokens).outcome = .ok p ∧
      ∀ nests, Braced nestedTokens nests ↔ nests = [.body [.body []]]) ∧
    (∃ d left, (ofTokens "f" none (nestedTokens.take 11)).outcome = .error d ∧
      InnermostUnclosed (nestedTokens.take 11) left ∧
      d.hint = some ("the body opened at " ++ left.location.text ++ " is never closed") ∧
      d.hint = some ("the body opened at " ++ (Location.mk "f" 1 5).text ++ " is never closed")) ∧
    ∃ right, FirstUnopened (nestedTokens ++ [⟨.mark .closeBrace "\x7d", ⟨"f", 3, 2⟩⟩]) right ∧
      right.location = ⟨"f", 3, 2⟩ := by
  refine ⟨?_, ?_, ?_⟩
  · obtain ⟨p, hread, hnests⟩ := read_nestedTokens
    obtain ⟨-, hbraced⟩ := (braces_match "f" none nestedTokens).1 p hread
    rw [hnests] at hbraced
    exact ⟨p, hread, hbraced⟩
  · obtain ⟨d, hread, hmessage, hhint⟩ := read_nestedTokens_unclosed
    obtain ⟨left, hleft, hopened⟩ :=
      (braces_match "f" none (nestedTokens.take 11)).2.1 d hread hmessage
    exact ⟨d, left, hread, hleft, hopened, hhint⟩
  · obtain ⟨d, hread, hmessage, hplace⟩ := read_nestedTokens_overclosed
    obtain ⟨right, hright, hlocation⟩ := (braces_match "f" none _).2.2 d hread hmessage
    rw [hplace] at hlocation
    exact ⟨right, hright, (Option.some.inj hlocation).symm⟩

end MacroAsm
