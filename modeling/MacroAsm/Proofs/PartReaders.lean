import MacroAsm.Proofs.Relocation

/-!
# MacroAsm.Proofs.PartReaders

The readers of parts of items stop at the first failure: at the first token with which what
has been read cannot be a part any more.

* `PartReader.Stuck` — such a failure: the tokens before it can be completed, whatever
  follows, and with the token itself nothing can;
* `PartReader.Prompt` — all failures of a reader are such, which sequencing keeps
  (`Prompt.andThen`);
* `prompt_names` and `prompt_head` — so it is with names in parentheses and with the heads of
  declarations.
-/

namespace MacroAsm

/-- A mark as it is written. -/
def Mark.token (m : Mark) (place : Location) : Token := ⟨.mark m m.spelling, place⟩

namespace Reader

open Grammar

variable {stop : Location} {ts seen rest : List Token} {e : Halt}

theorem location_of_halt {α : Type} {fault : Lexeme → Fault}
    (h : (halt stop ts fault : Except Halt α) = .error e) :
    e.location = (peek stop ts).location := by
  cases h
  rfl

/-! ## Readers of parts -/

/-- A reader of a part of an item returns it with the tokens behind it. -/
abbrev PartReader (α : Type) : Type := List Token → Except Halt (α × List Token)

namespace PartReader

variable {α β : Type}

/-- Read one part, then what depends on it. -/
def andThen (read : PartReader α) (next : α → PartReader β) : PartReader β := fun ts =>
  match read ts with
  | .ok (a, rest) => next a rest
  | .error e => .error e

/-- What has been seen can be completed to a part, whatever follows. -/
def Completable (read : PartReader α) (seen : List Token) : Prop :=
  ∃ more a, ∀ tail, read (seen ++ (more ++ tail)) = .ok (a, tail)

/-- A reader that has seen some tokens halts at the next one: what it has seen can be
completed, and with the next token nothing can. -/
structure Stuck (read : PartReader α) (stop : Location) (seen rest : List Token) (e : Halt) :
    Prop where
  location : e.location = (peek stop rest).location
  completable : read.Completable seen
  hopeless : ∀ t us, rest = t :: us → ∀ us', read (seen ++ t :: us') = .error e

/-- A reader that stops at the first failure. -/
def Prompt (read : PartReader α) (stop : Location) : Prop :=
  ∀ ts e, read ts = .error e → ∃ seen rest, ts = seen ++ rest ∧ read.Stuck stop seen rest e

/-- A reader that does not look beyond the part. -/
def Framed (read : PartReader α) : Prop :=
  ∀ ts a rest, read ts = .ok (a, rest) →
    ∃ seen, ts = seen ++ rest ∧ ∀ us, read (seen ++ us) = .ok (a, us)

variable {read : PartReader α} {next : α → PartReader β}

theorem andThen_ok {a : α} (h : read ts = .ok (a, rest)) : read.andThen next ts = next a rest := by
  rw [andThen, h]

theorem andThen_error (h : read ts = .error e) : read.andThen next ts = .error e := by
  rw [andThen, h]

theorem Completable.andThen (h : read.Completable seen)
    (hnext : ∀ a, (next a).Completable []) : (read.andThen next).Completable seen := by
  obtain ⟨more, a, hmore⟩ := h
  obtain ⟨more', b, hmore'⟩ := hnext a
  refine ⟨more ++ more', b, fun tail => ?_⟩
  rw [List.append_assoc, andThen_ok (hmore (more' ++ tail))]
  exact hmore' tail

/-- **Stopping at the first failure is kept by sequencing.** -/
theorem Prompt.andThen (hread : read.Prompt stop) (hframed : read.Framed)
    (hnext : ∀ a, (next a).Prompt stop) (hcompletable : ∀ a, (next a).Completable []) :
    (read.andThen next).Prompt stop := by
  intro ts e h
  cases hfirst : read ts with
  | error e' =>
    obtain rfl : e' = e := by simpa [PartReader.andThen, hfirst] using h
    obtain ⟨seen, rest, hts, hstuck⟩ := hread ts e' hfirst
    refine ⟨seen, rest, hts, hstuck.location, hstuck.completable.andThen hcompletable, ?_⟩
    intro t us hrest us'
    exact andThen_error (hstuck.hopeless t us hrest us')
  | ok r =>
    obtain ⟨a, us⟩ := r
    rw [andThen_ok hfirst] at h
    obtain ⟨before, rfl, hbefore⟩ := hframed ts a us hfirst
    obtain ⟨seen, rest, rfl, hstuck⟩ := hnext a us e h
    refine ⟨before ++ seen, rest, by rw [List.append_assoc], hstuck.location, ?_, ?_⟩
    · obtain ⟨more, b, hmore⟩ := hstuck.completable
      refine ⟨more, b, fun tail => ?_⟩
      rw [List.append_assoc, andThen_ok (hbefore _), hmore]
    · intro t us hrest us'
      rw [List.append_assoc, andThen_ok (hbefore _), hstuck.hopeless t us hrest us']

/-- Line ends that are skipped count as seen. -/
theorem Stuck.skip (seen : List Token) (h : read.Stuck stop seen (skipNewlines ts) e)
    (hread : ∀ ws us, Newlines ws → read (seen ++ (ws ++ us)) = read (seen ++ us)) :
    ∃ seen' rest, seen ++ ts = seen' ++ rest ∧ read.Stuck stop seen' rest e := by
  obtain ⟨ws, hws, hts⟩ := exists_newlines_append ts
  refine ⟨seen ++ ws, skipNewlines ts, by rw [List.append_assoc, ← hts], h.location, ?_, ?_⟩
  · obtain ⟨more, a, hmore⟩ := h.completable
    refine ⟨more, a, fun tail => ?_⟩
    rw [List.append_assoc, hread ws _ hws, hmore]
  · intro t us hrest us'
    rw [List.append_assoc, hread ws _ hws, h.hopeless t us hrest us']

end PartReader

open PartReader

/-- A reader that takes a given mark, line ends aside. -/
def expect (stop : Location) (m : Mark) (fault : Lexeme → Fault) : PartReader Location := fun ts =>
  match skipNewlines ts with
  | ⟨.mark n text, place⟩ :: rest =>
    if n = m then .ok (place, rest) else .error ⟨fault (.mark n text), place⟩
  | rest => halt stop rest fault

section

variable {m : Mark} {fault : Lexeme → Fault}

theorem expect_of_eq {text : String} {place : Location}
    (h : skipNewlines ts = ⟨.mark m text, place⟩ :: rest) :
    expect stop m fault ts = .ok (place, rest) := by
  simp [expect, h]

theorem expect_of_ne (h : ∀ text place us, skipNewlines ts ≠ ⟨.mark m text, place⟩ :: us) :
    expect stop m fault ts = halt stop (skipNewlines ts) fault := by
  unfold expect
  split
  · rename_i n text place us hts
    have hne : n ≠ m := by
      rintro rfl
      exact h text place us hts
    rw [if_neg hne, hts]
    rfl
  · rfl

theorem framed_expect : (expect stop m fault).Framed := by
  intro ts place rest h
  obtain ⟨ws, hws, hts⟩ := exists_newlines_append ts
  by_cases hnext : ∃ text found us, skipNewlines ts = ⟨.mark m text, found⟩ :: us
  · obtain ⟨text, found, us, hskip⟩ := hnext
    rw [expect_of_eq hskip] at h
    cases h
    refine ⟨ws ++ [⟨.mark m text, place⟩], by rw [← List.append_cons, ← hskip, ← hts], ?_⟩
    intro us
    rw [← List.append_cons]
    exact expect_of_eq (skipNewlines_append_cons hws Lexeme.noConfusion us)
  · rw [expect_of_ne fun text found us hskip => hnext ⟨text, found, us, hskip⟩] at h
    cases h

theorem completable_expect : (expect stop m fault).Completable [] :=
  ⟨[m.token stop], stop, fun _ => expect_of_eq rfl⟩

theorem prompt_expect : (expect stop m fault).Prompt stop := by
  intro ts e h
  by_cases hnext : ∃ text found us, skipNewlines ts = ⟨.mark m text, found⟩ :: us
  · obtain ⟨text, found, us, hskip⟩ := hnext
    rw [expect_of_eq hskip] at h
    cases h
  · rw [expect_of_ne fun text found us hskip => hnext ⟨text, found, us, hskip⟩] at h
    refine Stuck.skip [] ⟨location_of_halt h, completable_expect, ?_⟩ ?_
    · intro t us hus us'
      have hcons := skipNewlines_cons (ne_newline_of_skipNewlines hus) us'
      rw [List.nil_append, expect_of_ne, hcons, ← h, hus]
      · rfl
      · intro text found vs hvs
        rw [hcons] at hvs
        cases hvs
        exact hnext ⟨text, found, us, hus⟩
    · intro ws us hws
      rw [List.nil_append, List.nil_append, expect, expect, skipNewlines_append hws]

end

/-! ## Names -/

section

variable {role : NameRole}

theorem completable_someNames : PartReader.Completable (someNames stop role) [] := by
  have hname : Word.isName "x" = true := by decide
  exact ⟨[⟨.word "x", stop⟩, Mark.closeParen.token stop], ["x"], fun tail =>
    someNames_closed (isName_iff.mp hname) rfl rfl⟩

theorem someNames_newlines (ws us : List Token) (hws : Newlines ws) :
    someNames stop role ([] ++ (ws ++ us)) = someNames stop role ([] ++ us) := by
  rw [List.nil_append, List.nil_append, someNames_eq, someNames_eq stop role us,
    skipNewlines_append hws]

/-- Behind a name: a comma, or the closing parenthesis. -/
theorem stuck_behind_name {ws : List Token} {name : String} {place : Location} (hws : Newlines ws)
    (hname : Word.isName name = true)
    (hcomma : ∀ text found us, skipNewlines ts ≠ ⟨.mark .comma text, found⟩ :: us)
    (hclose : ∀ text found us, skipNewlines ts ≠ ⟨.mark .closeParen text, found⟩ :: us)
    (h : (halt stop (skipNewlines ts) (.noSeparator role) :
      Except Halt (List String × List Token)) = .error e) :
    ∃ seen rest, ws ++ ⟨.word name, place⟩ :: ts = seen ++ rest ∧
      PartReader.Stuck (someNames stop role) stop seen rest e := by
  rw [List.append_cons]
  refine Stuck.skip _ ⟨location_of_halt h, ?_, ?_⟩ ?_
  · refine ⟨[Mark.closeParen.token stop], [name], fun tail => ?_⟩
    rw [← List.append_cons, someNames_word hws hname]
    rfl
  · intro t us hus us'
    rw [← List.append_cons, someNames_word hws hname,
      skipNewlines_cons (ne_newline_of_skipNewlines hus)]
    rw [hus] at h
    split
    · rename_i hcons
      cases hcons
      exact (hcomma _ _ _ hus).elim
    · rename_i hcons
      cases hcons
      exact (hclose _ _ _ hus).elim
    · exact h
  · intro vs us hvs
    rw [← List.append_cons, ← List.append_cons, someNames_word hws hname,
      someNames_word hws hname, skipNewlines_append hvs]

theorem prompt_someNames : PartReader.Prompt (someNames stop role) stop := by
  intro ts e h
  fun_induction someNames stop role ts with
  | case1 => cases h
  | case2 ts name place afterName hskip hname text found more hcomma e' hmore ih =>
    cases h
    obtain ⟨seen, rest, rfl, hstuck⟩ := ih hmore
    obtain ⟨ws, hws, hts⟩ := exists_newlines_append ts
    obtain ⟨vs, hvs, hafter⟩ := exists_newlines_append afterName
    rw [hskip, hafter, hcomma] at hts
    have hread (us : List Token) : someNames stop role
        (ws ++ ⟨.word name, place⟩ :: (vs ++ ⟨.mark .comma text, found⟩ :: us)) =
          (someNames stop role us).map fun r => (name :: r.1, r.2) := by
      have hnext : skipNewlines (vs ++ ⟨.mark .comma text, found⟩ :: us) =
          ⟨.mark .comma text, found⟩ :: us := skipNewlines_append_cons hvs Lexeme.noConfusion us
      rw [someNames_word hws hname, hnext]
    refine ⟨ws ++ ⟨.word name, place⟩ :: (vs ++ ⟨.mark .comma text, found⟩ :: seen), rest, ?_,
      hstuck.location, ?_, ?_⟩
    · rw [hts]
      simp
    · obtain ⟨more, ns, hns⟩ := hstuck.completable
      refine ⟨more, name :: ns, fun tail => ?_⟩
      simp only [List.append_assoc, List.cons_append, hread, hns, Except.map]
    · intro t us hrest us'
      simp only [List.append_assoc, List.cons_append, hread, hstuck.hopeless t us hrest us',
        Except.map]
  | case3 => cases h
  | case4 ts name place afterName hskip hname hcomma hclose =>
    obtain ⟨ws, hws, hts⟩ := exists_newlines_append ts
    rw [hts, hskip]
    exact stuck_behind_name hws hname hcomma hclose h
  | case5 ts name place afterName hskip hname =>
    cases h
    refine Stuck.skip [] ⟨by rw [hskip]; rfl, completable_someNames, ?_⟩ someNames_newlines
    intro t us hus us'
    rw [hskip] at hus
    cases hus
    rw [List.nil_append, someNames_eq]
    simp only [skipNewlines, hname, Bool.false_eq_true, if_false]
  | case6 ts hword =>
    refine Stuck.skip [] ⟨location_of_halt h, completable_someNames, ?_⟩
      someNames_newlines
    intro t us hus us'
    rw [List.nil_append, someNames_eq, skipNewlines_cons (ne_newline_of_skipNewlines hus)]
    rw [hus] at h
    split
    · rename_i hcons
      cases hcons
      exact (hword _ _ _ hus).elim
    · exact h

/-- Names that do not start with a parenthesis are at least one. -/
theorem names_cons {t : Token} (hnewline : t.lexeme ≠ .newline) (hclose : ¬ t.Is .closeParen)
    (us : List Token) : names stop role (t :: us) = someNames stop role (t :: us) := by
  rw [names, skipNewlines_cons hnewline]
  split
  · rename_i hcons
    cases hcons
    exact (hclose ⟨_, rfl⟩).elim
  · rfl

theorem names_newlines {ws : List Token} (hws : Newlines ws) (us : List Token) :
    names stop role (ws ++ us) = names stop role us := by
  rw [names, names, skipNewlines_append hws]

theorem names_of_someNames {ns : List String} (h : someNames stop role ts = .ok (ns, rest)) :
    names stop role ts = .ok (ns, rest) := by
  obtain ⟨inner, right, hts, hright, hlisted⟩ := listed_of_someNames h
  exact names_eq_ok_iff.mpr ⟨inner, right, hts, hright, .inr hlisted⟩

theorem framed_names : PartReader.Framed (names stop role) := by
  intro ts ns rest h
  obtain ⟨inner, right, rfl, hright, hinner⟩ := names_eq_ok_iff.mp h
  refine ⟨inner ++ [right], List.append_cons .., fun us => ?_⟩
  rw [← List.append_cons]
  exact names_eq_ok_iff.mpr ⟨inner, right, rfl, hright, hinner⟩

theorem prompt_names : PartReader.Prompt (names stop role) stop := by
  intro ts e h
  obtain ⟨ws, hws, hts⟩ := exists_newlines_append ts
  unfold names at h
  split at h
  · cases h
  rename_i hclose
  obtain ⟨seen, rest, hsplit, hstuck⟩ := prompt_someNames _ _ h
  refine ⟨ws ++ seen, rest, by rw [List.append_assoc, ← hsplit, ← hts], hstuck.location, ?_, ?_⟩
  · obtain ⟨more, ns, hmore⟩ := hstuck.completable
    refine ⟨more, ns, fun tail => ?_⟩
    rw [List.append_assoc, names_newlines hws]
    exact names_of_someNames (hmore tail)
  · intro t us hrest us'
    -- what follows `t` has no influence on the first token, which is no closing parenthesis
    obtain ⟨c, vs, vs', hc, hc'⟩ : ∃ c vs vs', seen ++ t :: us = c :: vs ∧
        seen ++ t :: us' = c :: vs' := by
      cases seen with
      | nil => exact ⟨t, us, us', rfl, rfl⟩
      | cons s seen => exact ⟨s, _, _, rfl, rfl⟩
    rw [hrest, hc] at hsplit
    have hfirst : ¬ c.Is .closeParen := by
      intro his
      obtain ⟨text, place, rfl⟩ := his.exists_eq
      exact hclose _ _ _ hsplit
    have herror := hstuck.hopeless t us hrest us'
    rw [hc'] at herror
    rw [List.append_assoc, names_newlines hws, hc',
      names_cons (ne_newline_of_skipNewlines hsplit) hfirst, herror]

end

/-! ## Heads -/

/-- A head is its names, an equals sign and a brace. -/
theorem head_eq (stop : Location) (name : String) (place : Location) :
    head stop name place = PartReader.andThen (names stop .parameter) fun parameters =>
      (expect stop .equals (.noEquals name)).andThen fun _ =>
        (expect stop .openBrace (.noBody name)).andThen fun opened ts =>
          .ok (⟨name, parameters, place, opened⟩, ts) := by
  funext ts
  unfold head
  cases hnames : names stop .parameter ts with
  | error e => rw [andThen_error hnames]
  | ok r =>
    obtain ⟨parameters, us⟩ := r
    rw [andThen_ok hnames]
    dsimp only
    split
    · rename_i text found us' hequals
      rw [andThen_ok (expect_of_eq hequals)]
      split
      · rename_i text' opened us'' hbrace
        rw [andThen_ok (expect_of_eq hbrace)]
      · rename_i hbrace
        exact (andThen_error (expect_of_ne hbrace)).symm
    · rename_i hequals
      exact (andThen_error (expect_of_ne hequals)).symm

theorem prompt_head {name : String} {place : Location} :
    PartReader.Prompt (head stop name place) stop := by
  rw [head_eq]
  refine prompt_names.andThen framed_names (fun parameters => ?_) (fun parameters => ?_)
  · refine prompt_expect.andThen framed_expect (fun _ => ?_) (fun _ => ?_)
    · refine prompt_expect.andThen framed_expect (fun opened => ?_) (fun opened => ?_)
      · intro ts e h
        cases h
      · exact ⟨[], _, fun _ => rfl⟩
    · exact completable_expect.andThen fun opened => ⟨[], _, fun _ => rfl⟩
  · exact completable_expect.andThen fun _ =>
      completable_expect.andThen fun opened => ⟨[], _, fun _ => rfl⟩

end Reader

end MacroAsm
