import MacroAsm.Proofs.LineEnds
import MacroAsm.Proofs.PartReaders

/-!
# MacroAsm.Proofs.FirstFailure

Reading reports the first failure: the tokens before the one where it stops can be completed
to a program, and with that token and the one behind it they cannot.

* `Halts` — how a step fails; a word is an instruction or a macro depending on what follows
  it, which is why it may take one token more;
* `exists_fails` — how reading fails, whatever is open: what a step has read stays as it is if
  other tokens follow, and whatever is open can be closed;
* `parse_stops_first` — from source text to the place of the error.
-/

namespace MacroAsm

namespace Reader

open Grammar

variable {stop : Location} {ts seen rest : List Token} {e : Halt}

/-! ## One step -/

/-- Steps after which reading goes on in the same body or in a new one. -/
def GoesOn (f : List Token → Front) : Prop := (∃ x, f = .item x) ∨ ∃ hd, f = .opening hd

/-- A step that has seen some tokens halts at the next one.  Whether a word starts an
instruction depends on what follows it, so it may take one more token before nothing helps. -/
structure Halts (stop : Location) (seen rest : List Token) (e : Halt) : Prop where
  location : e.location = (peek stop rest).location
  completable : ∃ more f, (seen = [] → Apart more) ∧ GoesOn f ∧
    ∀ tail, front stop (seen ++ (more ++ tail)) = .ok (f tail)
  hopeless : ∀ t u us, rest = t :: u :: us →
    ∀ us', front stop (seen ++ t :: u :: us') = .error e

theorem Halts.newlines {ws : List Token} (h : Halts stop seen rest e) (hws : Newlines ws) :
    Halts stop (ws ++ seen) rest e := by
  obtain ⟨more, f, hmore, hf, hfront⟩ := h.completable
  refine ⟨h.location, ⟨more, f, fun hnil => ?_, hf, fun tail => ?_⟩, fun t u us hrest us' => ?_⟩
  · exact hmore (List.append_eq_nil_iff.mp hnil).2
  · rw [List.append_assoc, front_newlines hws, hfront]
  · rw [List.append_assoc, front_newlines hws, h.hopeless t u us hrest us']

/-- Where nothing has been seen, a comment could stand. -/
theorem halts_first (hlocation : e.location = (peek stop rest).location)
    (hhopeless : ∀ t u us, rest = t :: u :: us → ∀ us', front stop (t :: u :: us') = .error e) :
    Halts stop [] rest e := by
  exact ⟨hlocation, ⟨[⟨.newline, stop⟩, ⟨.comment "", stop⟩], _, fun _ => apart_newline _ _,
    .inl ⟨_, rfl⟩, fun tail => rfl⟩, hhopeless⟩

/-- A step that has taken its first tokens and leaves the rest to a reader of a part. -/
theorem exists_halts_of_prompt {α : Type} {read : PartReader α} {us : List Token}
    (before : List Token) (make : α → List Token → Front) (hbefore : before ≠ [])
    (hmake : ∀ a, GoesOn (make a)) (hread : read.Prompt stop)
    (hfront : ∀ us, front stop (before ++ us) = (read us).map fun r => make r.1 r.2)
    (h : read us = .error e) :
    ∃ seen rest, before ++ us = seen ++ rest ∧ Halts stop seen rest e := by
  obtain ⟨seen, rest, rfl, hstuck⟩ := hread us e h
  obtain ⟨more, a, hmore⟩ := hstuck.completable
  refine ⟨before ++ seen, rest, by rw [List.append_assoc], hstuck.location,
    ⟨more, make a, fun hnil => ?_, hmake a, fun tail => ?_⟩, fun t u us hrest us' => ?_⟩
  · exact absurd (List.append_eq_nil_iff.mp hnil).1 hbefore
  · rw [List.append_assoc, hfront, hmore]
    rfl
  · rw [List.append_assoc, hfront, hstuck.hopeless t _ hrest]
    rfl

/-- An instruction that cannot be read has a bad first word, or a label that no operation
follows. -/
theorem instruction_eq_error {word : String} {place : Location}
    (h : instruction stop word place ts = .error e) :
    (e.location = place ∧ ∀ us, instruction stop word place us = .error e) ∨
    (Label word ∧ e.location = (peek stop ts).location ∧
      ∀ t us, ts = t :: us → ∀ us', instruction stop word place (t :: us') = .error e) := by
  cases hopcode : Opcode.ofWord? word with
  | some opcode =>
    simp only [instruction, hopcode] at h
    cases h
  | none =>
    by_cases hlabel : Word.isLabel word
    · refine .inr ⟨(isLabel_iff hopcode).mp hlabel, ?_⟩
      simp only [instruction, hopcode, hlabel, if_true] at h ⊢
      split at h
      · rename_i name found us
        split at h
        · cases h
        · rename_i hname
          cases h
          refine ⟨rfl, fun t us hcons us' => ?_⟩
          cases hcons
          simp only [hname]
      · rename_i hword
        refine ⟨location_of_halt h, ?_⟩
        rintro t us rfl us'
        split
        · rename_i hcons
          cases hcons
          exact (hword _ _ _ rfl).elim
        · exact h
    · simp only [instruction, hopcode, hlabel] at h ⊢
      cases h
      exact .inl ⟨rfl, fun us => rfl⟩

theorem exists_halts_of_instruction {word : String} {place : Location} (hnext : Next NoParen ts)
    (h : instruction stop word place ts = .error e) :
    ∃ seen rest, ⟨.word word, place⟩ :: ts = seen ++ rest ∧ Halts stop seen rest e := by
  rcases instruction_eq_error h with ⟨hlocation, hbad⟩ | ⟨hlabel, hlocation, hbad⟩
  · refine ⟨[], _, rfl, halts_first hlocation fun t u us hcons us' => ?_⟩
    cases hcons
    rw [front_word rfl (hnext.cons us'), hbad]
    rfl
  · refine ⟨[⟨.word word, place⟩], ts, rfl, hlocation, ?_, ?_⟩
    · have hline : Line [⟨.word word, place⟩, ⟨.word "HLT", stop⟩, ⟨.word "x", stop⟩]
          ⟨.hlt, some word, some "x", some place⟩ :=
        .labelled hlabel (Opcode.ofWord?_eq_some_iff.mp (by decide)) .word
      refine ⟨[⟨.word "HLT", stop⟩, ⟨.word "x", stop⟩], _, fun hnil => ?_, .inl ⟨_, rfl⟩,
        fun tail => front_leaf (.instruction hline ?_ ?_)⟩
      · cases hnil
      · rintro t ⟨⟩
        exact noParen_of_word rfl
      · intro hnone
        cases hnone
    · rintro t u us rfl us'
      rw [List.singleton_append, front_word rfl (hnext.cons _), hbad t _ rfl]
      rfl

/-- **A step stops at the first failure.** -/
theorem exists_halts (h : front stop ts = .error e) :
    ∃ seen rest, ts = seen ++ rest ∧ Halts stop seen rest e := by
  obtain ⟨ws, hws, hts⟩ := exists_newlines_append ts
  suffices hhalts : ∃ seen rest, skipNewlines ts = seen ++ rest ∧ Halts stop seen rest e by
    obtain ⟨seen, rest, hsplit, hhalts⟩ := hhalts
    exact ⟨ws ++ seen, rest, by rw [List.append_assoc, ← hsplit, ← hts], hhalts.newlines hws⟩
  unfold front at h
  split at h
  · cases h
  · cases h
  · cases h
  · rename_i word place text found us hword
    rw [hword]
    split at h
    · rename_i hname
      refine exists_halts_of_prompt [⟨.word word, place⟩, ⟨.mark .openParen text, found⟩] .opening
        (List.cons_ne_nil _ _) (fun hd => .inr ⟨hd, rfl⟩) prompt_head (fun us => ?_)
        (map_eq_error_iff.mp h)
      simp only [List.cons_append, List.nil_append, front, skipNewlines, hname, if_true]
    · rename_i hname
      cases h
      refine ⟨[], _, rfl, halts_first rfl fun t u us hcons us' => ?_⟩
      cases hcons
      simp only [front, skipNewlines, hname, Bool.false_eq_true, if_false]
  · rename_i word place text found us hword
    rw [hword]
    split at h
    · rename_i hname
      refine exists_halts_of_prompt [⟨.word word, place⟩, ⟨.mark .callOpen text, found⟩]
        (fun arguments => .item (.call ⟨word, arguments, some place⟩)) (List.cons_ne_nil _ _)
        (fun arguments => .inl ⟨_, rfl⟩) prompt_names (fun us => ?_) (map_eq_error_iff.mp h)
      simp only [List.cons_append, List.nil_append, front, skipNewlines, hname, if_true]
    · rename_i hname
      cases h
      refine ⟨[], _, rfl, halts_first rfl fun t u us hcons us' => ?_⟩
      cases hcons
      simp only [front, skipNewlines, hname, Bool.false_eq_true, if_false]
  · rename_i word place us hdeclaration hcall hword
    rw [hword]
    exact exists_halts_of_instruction (next_noParen hdeclaration hcall) (map_eq_error_iff.mp h)
  · rename_i lexeme place us hclose hcomment hdeclaration hcall hword hus
    rw [hus]
    cases h
    refine ⟨[], _, rfl, halts_first rfl fun t u vs hcons us' => ?_⟩
    cases hcons
    exact front_unexpected (skipNewlines_cons (ne_newline_of_skipNewlines hus) _) hclose hcomment
      hword

/-! ## Whole programs -/

section

variable {frames : List Frame} {items : List Item}

/-- Reading that has seen some tokens fails at the next one, as a step does. -/
structure Fails (stop : Location) (frames : List Frame) (items : List Item)
    (seen rest : List Token) (e : Halt) : Prop where
  location : e.location = (peek stop rest).location
  completable : ∃ more p, (seen = [] → Apart more) ∧
    (build stop frames items (seen ++ more)).outcome = .ok p
  hopeless : ∀ t u us, rest = t :: u :: us →
    ∀ us', (build stop frames items (seen ++ t :: u :: us')).outcome = .error e

/-- As many closing braces as there are bodies open. -/
def closers (stop : Location) (frames : List Frame) : List Token :=
  List.replicate frames.length (Mark.closeBrace.token stop)

theorem ends_closers : Ends (closers stop frames) := by
  cases frames with
  | nil => exact ends_nil
  | cons frame frames =>
    rintro t ⟨⟩
    exact ⟨_, rfl⟩

/-- Whatever is open can be closed. -/
theorem build_closers : ∃ p, (build stop frames items (closers stop frames)).outcome = .ok p := by
  induction frames generalizing items with
  | nil => exact ⟨_, build_nil⟩
  | cons frame frames ih =>
    obtain ⟨hd, before⟩ := frame
    have hfront : front stop (closers stop (⟨hd, before⟩ :: frames)) =
        .ok (.close stop (closers stop frames)) := rfl
    rw [build_close hfront]
    exact ih

theorem fails_of_halts (h : Halts stop seen rest e) : Fails stop frames items seen rest e := by
  refine ⟨h.location, ?_, ?_⟩
  · obtain ⟨more, f, hmore, hf, hfront⟩ := h.completable
    rcases hf with ⟨x, rfl⟩ | ⟨hd, rfl⟩
    · obtain ⟨p, hp⟩ := @build_closers stop frames (x :: items)
      refine ⟨more ++ closers stop frames, p, fun hnil => ?_, ?_⟩
      · exact (hmore hnil).append ends_closers.apart
      · rw [build_item (hfront _), hp]
    · obtain ⟨p, hp⟩ := @build_closers stop (⟨hd, items⟩ :: frames) []
      refine ⟨more ++ closers stop (⟨hd, items⟩ :: frames), p, fun hnil => ?_, ?_⟩
      · exact (hmore hnil).append ends_closers.apart
      · rw [build_opening (hfront _), hp]
  · intro t u us hrest us'
    rw [build_error (h.hopeless t u us hrest us')]

/-- A failure behind what a step has read. -/
theorem Fails.behind {before : List Token} {frames' : List Frame} {items' : List Item}
    (h : Fails stop frames' items' seen rest e)
    (hread : ∀ us vs more, seen ++ rest = us ++ vs → (us = [] → Apart more) →
      (build stop frames items (before ++ (us ++ more))).outcome =
        (build stop frames' items' (us ++ more)).outcome) :
    Fails stop frames items (before ++ seen) rest e := by
  refine ⟨h.location, ?_, ?_⟩
  · obtain ⟨more, p, hmore, hp⟩ := h.completable
    refine ⟨more, p, fun hnil => hmore (List.append_eq_nil_iff.mp hnil).2, ?_⟩
    rw [List.append_assoc, hread seen rest more rfl hmore, hp]
  · intro t u us hrest us'
    have hsplit : seen ++ rest = (seen ++ [t, u]) ++ us := by simp [hrest]
    have hassoc : seen ++ t :: u :: us' = (seen ++ [t, u]) ++ us' := by simp
    have hne : seen ++ [t, u] = [] → Apart us' := by
      intro hnil
      cases (List.append_eq_nil_iff.mp hnil).2
    rw [List.append_assoc, ← h.hopeless t u us hrest us', hassoc]
    exact hread _ us us' hsplit hne

/-- **Reading stops at the first failure**, whatever is open. -/
theorem exists_fails (h : (build stop frames items ts).outcome = .error e) :
    ∃ seen rest, ts = seen ++ rest ∧ Fails stop frames items seen rest e := by
  fun_induction build stop frames items ts with
  | case1 frames items ts e' hfront =>
    cases h
    obtain ⟨seen, rest, hts, hhalts⟩ := exists_halts hfront
    exact ⟨seen, rest, hts, fails_of_halts hhalts⟩
  | case2 => cases h
  | case3 items ts hfront frame frames =>
    cases h
    cases Shape.of_front hfront with
    | finish hws =>
      obtain ⟨p, hp⟩ := @build_closers stop (frame :: frames) items
      refine ⟨ts, [], (List.append_nil ts).symm, rfl, ?_, ?_⟩
      · refine ⟨closers stop (frame :: frames), p, fun _ => ends_closers.apart, ?_⟩
        rw [build_congr (front_newlines hws _), hp]
      · intro t u us hnil
        cases hnil
  | case4 items ts place rest hfront =>
    cases h
    cases Shape.of_front hfront with
    | @close ws _ brace hws hbrace =>
      refine ⟨ws, brace :: rest, rfl, rfl, ?_, ?_⟩
      · refine ⟨[], items.reverse, fun _ => ends_nil.apart, ?_⟩
        rw [build_congr (front_newlines hws []), build_nil]
      · intro t u us hcons us'
        cases hcons
        rw [build_congr (front_newlines hws _), build_stray (front_close hbrace)]
  | case5 items ts place rest hfront hd before frames ih =>
    rw [List.unattach_reverse, List.unattach_attach] at ih
    obtain ⟨seen, rest', rfl, hfails⟩ := ih h
    cases Shape.of_front hfront with
    | @close ws _ brace hws hbrace =>
      refine ⟨(ws ++ [brace]) ++ seen, rest', by simp, hfails.behind fun us vs more _ _ => ?_⟩
      rw [← List.append_cons, build_congr (front_newlines hws _), build_close (front_close hbrace)]
  | case6 frames items ts x rest hfront ih =>
    -- where nothing more has been seen, an item could go on in what completes it
    obtain ⟨seen, rest', rfl, hfails⟩ := ih h
    cases Shape.of_front hfront with
    | @item ws xs _ _ hws hleaf =>
      refine ⟨(ws ++ xs) ++ seen, rest', by simp, hfails.behind fun us vs more hsplit hmore => ?_⟩
      rw [hsplit] at hleaf
      rw [List.append_assoc, build_congr (front_newlines hws _),
        build_item (front_leaf (hleaf.replace hmore))]
  | case7 frames items ts hd rest hfront ih =>
    obtain ⟨seen, rest', rfl, hfails⟩ := ih h
    cases Shape.of_front hfront with
    | @opening ws xs _ _ hws hopening =>
      obtain ⟨_, _, _, hopen⟩ := front_opening hopening
      rw [front_newlines hws, hopen] at hfront
      refine ⟨(ws ++ xs) ++ seen, rest', by simp, hfails.behind fun us vs more _ _ => ?_⟩
      obtain ⟨name, parameters, location, opened'⟩ := hd
      cases hfront
      rw [List.append_assoc, build_congr (front_newlines hws _), build_opening (hopen stop _)]

end

end Reader

open Grammar Program

namespace Reader

variable {stop : Location} {ts : List Token} {e : Halt}

/-- What has been seen, completed, spells a program. -/
theorem Fails.derives {seen rest : List Token} (h : Fails stop [] [] seen rest e) :
    ∃ more p, (∀ s ∈ more, s.lexeme ≠ .endOfInput) ∧
      Derives (seen ++ more ++ [⟨.endOfInput, stop⟩]) p := by
  obtain ⟨more, p, -, hp⟩ := h.completable
  have hbody : Body (seen ++ more) p := (@read_eq_ok_iff ⟨_, stop⟩ p).mp hp
  have hend := hbody.ne_endOfInput
  exact ⟨more, p, (List.forall_mem_append.mp hend).2, (derives_append_end hend stop []).mpr hbody⟩

/-- With two more tokens than have been seen, nothing spells a program. -/
theorem Fails.not_derives {seen us : List Token} {t u : Token}
    (h : Fails stop [] [] seen (t :: u :: us) e)
    (hend : ∀ s ∈ seen ++ [t, u], s.lexeme ≠ .endOfInput) (more : List Token) (p : Program) :
    ¬ Derives (seen ++ [t, u] ++ more) p := by
  intro hderives
  have hbefore : ∀ s ∈ seen ++ [t, u], (s.lexeme != .endOfInput) = true :=
    fun s hs => bne_iff_ne.mpr (hend s hs)
  rw [Derives, List.takeWhile_append_of_pos hbefore, List.append_assoc] at hderives
  have hread : (read ⟨_, stop⟩).outcome = .ok p := read_eq_ok_iff.mpr hderives
  cases hread.symm.trans (h.hopeless t u us rfl _)

/-- The first failure of a list of tokens, in terms of the grammar. -/
theorem exists_first_failure {tokens : List Token}
    (htokens : tokens = ts ++ [⟨.endOfInput, stop⟩]) (hend : ∀ t ∈ ts, t.lexeme ≠ .endOfInput)
    (h : (read ⟨ts, stop⟩).outcome = .error e) :
    ∃ k t, tokens[k]? = some t ∧ e.location = t.location ∧
      (∃ more p, (∀ s ∈ more, s.lexeme ≠ .endOfInput) ∧
        Derives (tokens.take k ++ more ++ [⟨.endOfInput, stop⟩]) p) ∧
      ∀ more p, ¬ Derives (tokens.take (k + 2) ++ more) p := by
  -- a list that goes on behind the end of input is read up to there
  have hall (more : List Token) (p : Program) : ¬ Derives (tokens ++ more) p := by
    rw [htokens, ← List.append_cons, derives_append_end hend]
    intro hbody
    rw [(@read_eq_ok_iff ⟨ts, stop⟩ p).mpr hbody] at h
    cases h
  obtain ⟨seen, rest, rfl, hfails⟩ := exists_fails h
  refine ⟨seen.length, peek stop rest, ?_, hfails.location, ?_, ?_⟩
  · rw [htokens]
    cases rest <;> simp [peek]
  · obtain ⟨more, p, hmore, hderives⟩ := hfails.derives
    exact ⟨more, p, hmore, by simpa [htokens] using hderives⟩
  · intro more p
    by_cases hshort : tokens.length ≤ seen.length + 2
    · rw [List.take_of_length_le hshort]
      exact hall more p
    · obtain ⟨t, u, us, rfl⟩ : ∃ t u us, rest = t :: u :: us := by
        cases rest with
        | nil => simp [htokens] at hshort
        | cons t rest =>
          cases rest with
          | nil => simp [htokens] at hshort
          | cons u us => exact ⟨t, u, us, rfl⟩
      have htake : tokens.take (seen.length + 2) = seen ++ [t, u] := by
        simp [htokens, List.take_append, List.take_of_length_le]
      have hsplit : seen ++ t :: u :: us = seen ++ [t, u] ++ us := by simp
      rw [hsplit] at hend
      rw [htake]
      exact hfails.not_derives (List.forall_mem_append.mp hend).1 more p

end Reader

/-- **Parsing reports the first failure.**  If a text can be cut into tokens and cannot be read,
the error is at one of its tokens, and at no other.  The tokens before that one can be completed
to a list that is read as a program; no list that starts with them, that token and the one after
it is read, so the error is at most one token too early, and never late. -/
theorem parse_stops_first (file source : String) (tokens : List Token) (d : Diagnostic)
    (hscan : Token.scan file source = ⟨tokens, none⟩)
    (h : (ofSource file source).outcome = .error d) :
    ∃ k t, tokens[k]? = some t ∧ d.location = some t.location ∧
      (∀ j s, tokens[j]? = some s → d.location = some s.location → j = k) ∧
      (∃ more stop p, (∀ s ∈ more, s.lexeme ≠ .endOfInput) ∧
        (ofTokens file none (tokens.take k ++ more ++ [⟨.endOfInput, stop⟩])).outcome = .ok p) ∧
      ∀ file' source' more p,
        (ofTokens file' source' (tokens.take (k + 2) ++ more)).outcome ≠ .ok p := by
  have hunique {j k : Nat} {s t : Token} (hj : tokens[j]? = some s) (hk : tokens[k]? = some t)
      (hplace : s.location = t.location) : j = k := by
    have hindex := @Token.index_eq_of_scanFrom (.start file) source.toList j k s t
    rw [Token.scan] at hscan
    rw [hscan] at hindex
    exact hindex hj hk hplace
  rcases ofSource_eq_error_cases h with
    ⟨place, foreign, hstop, -⟩ | ⟨tokens', halt, hscan', hread, rfl⟩
  · rw [hscan] at hstop
    cases hstop
  obtain rfl : tokens' = tokens := by
    rw [hscan] at hscan'
    exact (Token.Scan.mk.inj hscan').1.symm
  obtain ⟨ts, stop, rfl, hend⟩ := Token.exists_of_scanFrom hscan
  rw [Reader.ofTokens_append_end file stop hend] at hread
  obtain ⟨k, t, hk, hlocation, ⟨more, p, hmore, hp⟩, hhopeless⟩ :=
    Reader.exists_first_failure rfl hend hread
  refine ⟨k, t, hk, congrArg some hlocation, ?_, ⟨more, stop, p, hmore, ofTokens_eq_ok_iff.mpr hp⟩,
    ?_⟩
  · intro j s hj hs
    refine hunique hj hk ?_
    rw [← hlocation]
    exact (Option.some.inj hs).symm
  · intro file' source' more p hok
    exact hhopeless more p (ofTokens_eq_ok_iff.mp hok)

/-- A word that could be a label, where it would have to be the name of a macro. -/
def mislabelled : String := "M()=\x7b\n1A("

/-- The tokens of `mislabelled`, up to the end of input. -/
def mislabelledTokens : List Token :=
  [⟨.word "M", ⟨"f", 1, 1⟩⟩, ⟨.mark .openParen "(", ⟨"f", 1, 2⟩⟩,
   ⟨.mark .closeParen ")", ⟨"f", 1, 3⟩⟩, ⟨.mark .equals "=", ⟨"f", 1, 4⟩⟩,
   ⟨.mark .openBrace "\x7b", ⟨"f", 1, 5⟩⟩, ⟨.newline, ⟨"f", 1, 6⟩⟩, ⟨.word "1A", ⟨"f", 2, 1⟩⟩,
   ⟨.mark .openParen "(", ⟨"f", 2, 3⟩⟩]

theorem scan_mislabelled : Token.scan "f" mislabelled =
    ⟨mislabelledTokens ++ [⟨.endOfInput, ⟨"f", 2, 4⟩⟩], none⟩ := by decide +kernel

theorem read_mislabelled : ∃ d, (ofSource "f" mislabelled).outcome = .error d ∧
    d.location = some ⟨"f", 2, 1⟩ := by
  rw [outcome_ofSource scan_mislabelled, ofTokens, Reader.ofTokens_append_end _ _ (by decide)]
  dsimp only
  rw [Reader.read, mislabelledTokens, Reader.build_opening (by rfl), Reader.build_error (by rfl)]
  exact ⟨_, rfl, rfl⟩

/-- The word alone could still be the label of an instruction. -/
theorem read_relabelled : ∃ more p,
    (ofTokens "f" none (mislabelledTokens.take 7 ++ more ++
      [⟨.endOfInput, ⟨"f", 2, 9⟩⟩])).outcome = .ok p := by
  refine ⟨[⟨.word "HLT", ⟨"f", 2, 4⟩⟩, ⟨.mark .closeBrace "\x7d", ⟨"f", 2, 8⟩⟩], ?_⟩
  rw [ofTokens, Reader.ofTokens_append_end _ _ (by decide)]
  dsimp only [mislabelledTokens, List.take, List.cons_append, List.nil_append]
  rw [Reader.read, Reader.build_opening (by rfl), Reader.build_item (by rfl),
    Reader.build_close rfl, Reader.build_nil]
  exact ⟨_, rfl⟩

/-- With its parenthesis the word of `mislabelled` is hopeless, and without it is not; what
stands before it can be completed. -/
theorem parse_mislabelled_stops_first :
    ∃ d, (ofSource "f" mislabelled).outcome = .error d ∧ d.location = some ⟨"f", 2, 1⟩ ∧
      (∃ more stop p,
        (ofTokens "f" none (mislabelledTokens.take 6 ++ more ++ [⟨.endOfInput, stop⟩])).outcome =
          .ok p) ∧
      (∃ more stop p,
        (ofTokens "f" none (mislabelledTokens.take 7 ++ more ++ [⟨.endOfInput, stop⟩])).outcome =
          .ok p) ∧
      ∀ more p, (ofTokens "f" none (mislabelledTokens.take 8 ++ more)).outcome ≠ .ok p := by
  obtain ⟨d, hread, hplace⟩ := read_mislabelled
  obtain ⟨k, t, hk, ht, hunique, ⟨more, stop, p, -, hp⟩, hhopeless⟩ :=
    parse_stops_first "f" mislabelled _ d scan_mislabelled hread
  obtain rfl : 6 = k := hunique 6 _ rfl hplace
  obtain ⟨more', p', hp'⟩ := read_relabelled
  exact ⟨d, hread, hplace, ⟨more, stop, p, hp⟩, ⟨more', _, p', hp'⟩, hhopeless "f" none⟩

end MacroAsm
