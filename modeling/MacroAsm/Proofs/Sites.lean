import Mathlib.Data.List.Lattice
import Mathlib.Data.List.Pairwise
import MacroAsm.Proofs.Reports

/-!
# MacroAsm.Proofs.Sites

Where the bad calls of a program that was read are written, and what a run says of each
of them.  A *site* is the place of a written call; its *origin* is the place of the call
of the program itself whose unfolding leads to it, and a call of the program itself has
none.

* `exists_written_of_mem_layer` — every call in the tree was written somewhere in the
  program, and differs from what was written in its arguments at most;
* `filterMap_site_trail` — what a run meets on its way are the bad sites;
* `mem_badSites_iff` — these are the sites of bad calls with all their origins;
* `notes_withOrigin` — the hint of a report ends with a note on the origin, if there is
  one, and on no other place;
* `reports_once` — a lenient run reports each bad site once for each of its origins.
-/

namespace MacroAsm

open Program Expansion

/-! ## Calls of the tree as they were written -/

/-- Two calls differ at most in what their arguments are. -/
structure Call.Alike (c w : Call) : Prop where
  name : c.name = w.name
  count : c.arguments.length = w.arguments.length
  location : c.location = w.location

theorem Call.Alike.refl (c : Call) : c.Alike c := ⟨rfl, rfl, rfl⟩

theorem Scope.alike_call (scope : Scope) (c : Call) : (scope.call c).Alike c :=
  ⟨rfl, scope.length_arguments_call c, rfl⟩

namespace Program

variable {program : Program}

theorem expands_congr {c w : Call} (h : c.Alike w) : program.expands c = program.expands w := by
  rw [expands, expands, target?, target?, h.name, h.count]

/-- A call under another one stands in the body of a declaration. -/
theorem exists_body_of_mem_subcalls {c c' : Call} (h : c' ∈ program.subcalls c) :
    ∃ d ∈ program.declarations, ∃ w ∈ calls d.body, c'.Alike w := by
  unfold subcalls at h
  cases ht : program.target? c with
  | none =>
      rw [ht] at h
      cases h
  | some d =>
      rw [ht] at h
      obtain ⟨w, hw, rfl⟩ := List.mem_map.mp h
      have hd := List.mem_of_find?_eq_some (target?_eq_some.mp ht).1
      exact ⟨d, hd, w, hw, Scope.alike_call _ w⟩

/-- So does every call below the calls of the program itself. -/
theorem exists_body_of_mem_layer {k : Nat} {cs : List Call} {c : Call}
    (h : c ∈ program.layer (k + 1) cs) :
    ∃ d ∈ program.declarations, ∃ w ∈ calls d.body, c.Alike w := by
  rw [layer_succ] at h
  obtain ⟨_, _, hc⟩ := List.mem_flatMap.mp h
  exact exists_body_of_mem_subcalls hc

theorem mem_calls {program : Program} {c : Call} : c ∈ calls program ↔ .call c ∈ program := by
  rw [calls, List.mem_filterMap]
  constructor
  · rintro ⟨x, hx, hc⟩
    cases x with
    | call c' =>
        cases hc
        exact hx
    | _ => cases hc
  · intro h
    exact ⟨.call c, h, rfl⟩

theorem mem_writtenCalls {c : Call} : c ∈ program.writtenCalls ↔ .call c ∈ preorder program :=
  mem_calls

/-- The calls of the program itself are written in it. -/
theorem mem_writtenCalls_of_mem_calls {c : Call} (h : c ∈ calls program) :
    c ∈ program.writtenCalls :=
  mem_writtenCalls.mpr (mem_preorder (mem_calls.mp h))

/-- So are the calls in the bodies of its declarations. -/
theorem mem_writtenCalls_of_mem_body {c : Call} {d : Declaration}
    (hd : d ∈ program.declarations) (h : c ∈ calls d.body) : c ∈ program.writtenCalls :=
  mem_writtenCalls.mpr
    (mem_preorder_of_mem_body (mem_declarations hd) (mem_preorder (mem_calls.mp h)))

/-- **Every call in the tree was written** somewhere in the program. -/
theorem exists_written_of_mem_layer {k : Nat} {top c : Call} (htop : top ∈ program.calls)
    (h : c ∈ program.layer k [top]) : ∃ w ∈ program.writtenCalls, c.Alike w := by
  cases k with
  | zero =>
      obtain rfl := List.mem_singleton.mp h
      exact ⟨c, mem_writtenCalls_of_mem_calls htop, .refl c⟩
  | succ k =>
      obtain ⟨d, hd, w, hw, halike⟩ := exists_body_of_mem_layer h
      exact ⟨w, mem_writtenCalls_of_mem_body hd hw, halike⟩

theorem layer_eq_flatMap (k : Nat) (cs : List Call) :
    program.layer k cs = cs.flatMap fun c => program.layer k [c] := by
  induction cs with
  | nil => simp
  | cons c cs ih => rw [← List.singleton_append, layer_append, ih, List.singleton_append,
      List.flatMap_cons]

/-- Below an empty layer there is nothing. -/
theorem layer_eq_nil_of_le {k n : Nat} {cs : List Call} (hk : k ≤ n)
    (h : program.layer k cs = []) : program.layer n cs = [] := by
  induction hk with
  | refl => exact h
  | step _ ih => rw [layer_succ, ih, List.flatMap_nil]

/-! ## Bad sites -/

/-- The sites of the bad calls in the first `n` layers of the tree, each with its origin:
layer by layer, and from left to right in each. -/
def badSites (program : Program) (n : Nat) : List (Location × Option Location) :=
  (List.range n).flatMap fun k => program.calls.flatMap fun top =>
    ((program.layer k [top]).filter fun c => !program.expands c).filterMap fun c =>
      c.location.map fun site => (site, if k = 0 then none else top.location)

/-- A bad call is written at a site, and either it is a call of the program itself, or the
origin is one whose unfolding has an occurrence of it. -/
def BadAt (program : Program) (site : Location) (origin : Option Location) : Prop :=
  ∃ w ∈ program.writtenCalls, w.location = some site ∧ program.expands w = false ∧
    ((origin = none ∧ w ∈ program.calls) ∨
      ∃ top ∈ program.calls, origin = top.location ∧
        ∃ k, ∃ c ∈ program.layer (k + 1) [top], c.location = some site)

theorem mem_badSites {n : Nat} {site : Location} {origin : Option Location} :
    (site, origin) ∈ program.badSites n ↔
      ∃ k < n, ∃ top ∈ program.calls, ∃ c ∈ program.layer k [top], program.expands c = false ∧
        c.location = some site ∧ origin = if k = 0 then none else top.location := by
  unfold badSites
  simp only [List.mem_flatMap, List.mem_filterMap, List.mem_filter, List.mem_range]
  constructor
  · rintro ⟨k, hk, top, htop, c, ⟨hc, hbad⟩, hsite⟩
    obtain ⟨place, hplace, heq⟩ := Option.map_eq_some_iff.mp hsite
    cases heq
    exact ⟨k, hk, top, htop, c, hc, by simpa using hbad, hplace, rfl⟩
  · rintro ⟨k, hk, top, htop, c, hc, hbad, hsite, rfl⟩
    exact ⟨k, hk, top, htop, c, ⟨hc, by simpa using hbad⟩, by simp [hsite]⟩

section

variable {file source : String}

/-- A place of a program that was read belongs to a single written call. -/
theorem eq_of_location_eq (h : (ofSource file source).outcome = .ok program) {w w' : Call}
    (hw : w ∈ program.writtenCalls) (hw' : w' ∈ program.writtenCalls)
    (hlocation : w.location = w'.location) : w = w' := by
  have heq := eq_of_place_eq h (mem_writtenCalls.mp hw) (mem_writtenCalls.mp hw') hlocation
  exact Item.call.inj heq

/-- A written call knows where it was written. -/
theorem exists_location (h : (ofSource file source).outcome = .ok program) {w : Call}
    (hw : w ∈ program.writtenCalls) : ∃ place, w.location = some place ∧ place.file = file :=
  exists_place_of_mem h (mem_writtenCalls.mp hw)

/-- **What the bad sites are**, if the tree ends within the layers that are looked at. -/
theorem mem_badSites_iff (h : (ofSource file source).outcome = .ok program) {n : Nat}
    (hn : program.layer n program.calls = []) (site : Location) (origin : Option Location) :
    (site, origin) ∈ program.badSites n ↔ program.BadAt site origin := by
  have hlayers : ∀ k, ∀ top ∈ program.calls, ∀ c ∈ program.layer k [top], k < n := by
    intro k top htop c hc
    by_contra hk
    have hempty := layer_eq_nil_of_le (Nat.le_of_not_lt hk) hn
    rw [layer_eq_flatMap, List.flatMap_eq_nil_iff] at hempty
    rw [hempty top htop] at hc
    cases hc
  rw [mem_badSites]
  constructor
  · rintro ⟨k, _, top, htop, c, hc, hbad, hsite, rfl⟩
    obtain ⟨w, hw, halike⟩ := exists_written_of_mem_layer htop hc
    refine ⟨w, hw, halike.location ▸ hsite, expands_congr halike ▸ hbad, ?_⟩
    cases k with
    | zero =>
        obtain rfl := List.mem_singleton.mp hc
        have hsame := eq_of_location_eq h (mem_writtenCalls_of_mem_calls htop) hw halike.location
        exact .inl ⟨rfl, hsame ▸ htop⟩
    | succ k => exact .inr ⟨top, htop, rfl, k, c, hc, hsite⟩
  · rintro ⟨w, hw, hsite, hbad, ⟨rfl, htop⟩ | ⟨top, htop, rfl, k, c, hc, hcsite⟩⟩
    · have hmem : w ∈ program.layer 0 [w] := List.mem_singleton_self w
      exact ⟨0, hlayers 0 w htop w hmem, w, htop, w, hmem, hbad, hsite, rfl⟩
    · obtain ⟨w', hw', halike⟩ := exists_written_of_mem_layer htop hc
      have hsame : w' = w :=
        eq_of_location_eq h hw' hw (by rw [← halike.location, hcsite, hsite])
      have hbad' : program.expands c = false := by rw [expands_congr halike, hsame, hbad]
      exact ⟨k + 1, hlayers _ top htop c hc, top, htop, c, hc, hbad', hcsite, rfl⟩

theorem preorder_eq_flatMap (xs : List Item) : preorder xs = xs.flatMap Item.preorder := by
  induction xs with
  | nil => rfl
  | cons x xs ih => rw [preorder_cons, List.flatMap_cons, ih]

/-- No call below the calls of the program itself stands where one of these does. -/
theorem location_ne_of_mem_layer (h : (ofSource file source).outcome = .ok program)
    {top c : Call} {k : Nat} {cs : List Call} (htop : top ∈ program.calls)
    (hc : c ∈ program.layer (k + 1) cs) : c.location ≠ top.location := by
  obtain ⟨d, hd, w, hw, halike⟩ := exists_body_of_mem_layer hc
  have hnodup := nodup_places_of_ofSource h
  rw [preorder_eq_flatMap, List.map_flatMap, List.nodup_flatMap] at hnodup
  have hsymm : Std.Symm (Function.onFun List.Disjoint fun x : Item => x.preorder.map Item.place) :=
    ⟨fun _ _ hdisjoint => hdisjoint.symm⟩
  -- the call and the declaration are two items of the program, so they share no place
  have hdisjoint := hnodup.2.forall (mem_calls.mp htop) (mem_declarations hd) Item.noConfusion
  have hleft : top.location ∈ (Item.call top).preorder.map Item.place :=
    List.mem_map_of_mem (Item.mem_preorder_self (.call top))
  have hright : w.location ∈ d.item.preorder.map Item.place := by
    have hmem : Item.call w ∈ d.item.preorder := by
      rw [Declaration.item, Item.preorder]
      exact List.mem_cons_of_mem _ (mem_preorder (mem_calls.mp hw))
    exact List.mem_map_of_mem hmem
  rw [halike.location]
  intro heq
  exact hdisjoint hleft (heq ▸ hright)

end

end Program

/-! ## What the hints end with -/

theorem toList_toString_ofNat (m : Nat) :
    (toString (Int.ofNat m)).toList = Nat.toDigits 10 m := Nat.toList_repr

theorem toList_toString_negSucc (m : Nat) :
    (toString (Int.negSucc m)).toList = '-' :: Nat.toDigits 10 (m + 1) := by
  have hneg : toString (Int.negSucc m) = "-" ++ toString (m + 1) := rfl
  rw [hneg, String.toList_append, Nat.toString_eq_repr, Nat.toList_repr]
  rfl

theorem sign_notMem_toDigits (m : Nat) : '-' ∉ Nat.toDigits 10 m := by
  intro h
  exact absurd (Nat.isDigit_of_mem_toDigits (by decide) (by decide) h) (by decide)

/-- A number is written with digits, and perhaps a sign. -/
theorem isDigit_of_mem_toString {n : Int} {c : Char} (h : c ∈ (toString n).toList) :
    c.isDigit = true ∨ c = '-' := by
  cases n with
  | ofNat m =>
    rw [toList_toString_ofNat] at h
    exact .inl (Nat.isDigit_of_mem_toDigits (by decide) (by decide) h)
  | negSucc m =>
    rw [toList_toString_negSucc, List.mem_cons] at h
    exact h.symm.imp_left (Nat.isDigit_of_mem_toDigits (by decide) (by decide))

/-- Different numbers are written differently. -/
theorem eq_of_toList_toString {m n : Int} (h : (toString m).toList = (toString n).toList) :
    m = n := by
  have hdigits : ∀ a b : Nat, Nat.toDigits 10 a = Nat.toDigits 10 b → a = b := by
    intro a b hab
    have hread := congrArg (Nat.ofDigitChars 10 · 0) hab
    simpa using hread
  cases m with
  | ofNat a =>
    rw [toList_toString_ofNat] at h
    cases n with
    | ofNat b =>
      rw [toList_toString_ofNat] at h
      rw [hdigits a b h]
    | negSucc b =>
      rw [toList_toString_negSucc] at h
      exact absurd (h ▸ List.mem_cons_self) (sign_notMem_toDigits a)
  | negSucc a =>
    rw [toList_toString_negSucc] at h
    cases n with
    | ofNat b =>
      rw [toList_toString_ofNat] at h
      exact absurd (h ▸ List.mem_cons_self) (sign_notMem_toDigits b)
    | negSucc b =>
      rw [toList_toString_negSucc, List.cons.injEq] at h
      rw [Nat.succ.inj (hdigits _ _ h.2)]

theorem colon_notMem_toString (n : Int) : ':' ∉ (toString n).toList := by
  intro h
  rcases isDigit_of_mem_toString h with hdigit | hsign
  · exact absurd hdigit (by decide)
  · exact absurd hsign (by decide)

/-- Where a character comes last decides how a list is cut there. -/
theorem append_cons_inj_of_notMem_right {a : Char} {xs xs' ys ys' : List Char} (hys : a ∉ ys)
    (hys' : a ∉ ys') (h : xs ++ a :: ys = xs' ++ a :: ys') : xs = xs' ∧ ys = ys' := by
  rcases List.append_eq_append_iff.mp h with ⟨zs, rfl, hzs⟩ | ⟨zs, rfl, hzs⟩
  · cases zs with
    | nil => simpa using hzs
    | cons z zs =>
        rw [List.cons_append] at hzs
        have hmem : a ∈ ys := by simp [(List.cons.inj hzs).2]
        exact absurd hmem hys
  · cases zs with
    | nil => simpa [eq_comm] using hzs
    | cons z zs =>
        rw [List.cons_append] at hzs
        have hmem : a ∈ ys' := by simp [(List.cons.inj hzs).2]
        exact absurd hmem hys'

namespace Location

theorem toList_text (place : Location) :
    place.text.toList = place.file.toList ++ ':' :: (toString place.line).toList ++
      ':' :: (toString place.column).toList := by
  simp [text]

/-- The written form of a place, at the end of a text, tells the place if the file is
known. -/
theorem append_text_inj {place place' : Location} {xs ys : List Char}
    (hfile : place.file = place'.file)
    (h : xs ++ place.text.toList = ys ++ place'.text.toList) : xs = ys ∧ place = place' := by
  simp only [toList_text, ← List.append_assoc] at h
  obtain ⟨hfront, hcolumn⟩ := append_cons_inj_of_notMem_right (colon_notMem_toString _)
    (colon_notMem_toString _) h
  obtain ⟨hbefore, hline⟩ := append_cons_inj_of_notMem_right (colon_notMem_toString _)
    (colon_notMem_toString _) hfront
  rw [hfile] at hbefore
  have hplaces : place = place' := by
    cases place
    cases place'
    exact Location.mk.injEq .. ▸ ⟨hfile, eq_of_toList_toString hline, eq_of_toList_toString hcolumn⟩
  exact ⟨List.append_cancel_right hbefore, hplaces⟩

end Location

namespace Diagnostic

/-- The note on the call that led to a diagnostic. -/
def note (place : Location) : String := "in the expansion of the call at " ++ place.text

theorem toList_note (place : Location) :
    (note place).toList = "in the expansion of the call at ".toList ++ place.text.toList :=
  String.toList_append

/-- The hint of a diagnostic ends with the note on a call. -/
def Notes (d : Diagnostic) (place : Location) : Prop :=
  ∃ hint ∈ d.hint, (note place).toList <:+ hint.toList

/-- A remark stands at the end of the hint. -/
theorem exists_hint_remark (d : Diagnostic) (text : String) :
    ∃ before, (d.remark text).hint = some (before ++ text) := by
  unfold remark
  cases d.hint with
  | none => exact ⟨"", by simp⟩
  | some hint =>
      by_cases hempty : hint.isEmpty
      · exact ⟨"", by simp [hempty]⟩
      · exact ⟨hint ++ "; ", by simp [hempty]⟩

/-- A list that ends with something has its last member there. -/
theorem mem_of_append_eq_concat {a : Char} {xs ys zs : List Char} (hys : ys ≠ [])
    (h : xs ++ ys = zs ++ [a]) : a ∈ ys := by
  have hlast := congrArg List.getLast? h
  rw [List.getLast?_append_of_ne_nil _ hys, List.getLast?_concat] at hlast
  exact List.mem_of_getLast? hlast

/-- A question is no note. -/
theorem not_notes_undeclared (name : String) (location : Option Location) (known : List String)
    (place : Location) : ¬ (undeclared name location known).Notes place := by
  rintro ⟨hint, hmem, zs, hzs⟩
  unfold undeclared at hmem
  dsimp only at hmem
  split at hmem
  · cases hmem
  · cases hmem
    rw [toList_note, Location.toList_text, ← List.append_assoc, ← List.append_assoc,
      String.toList_append] at hzs
    rcases List.mem_cons.mp (mem_of_append_eq_concat (List.cons_ne_nil _ _) hzs) with h | h
    · exact absurd h (by decide)
    · rcases isDigit_of_mem_toString h with hdigit | hsign
      · exact absurd hdigit (by decide)
      · exact absurd hsign (by decide)

/-- The place of a declaration is no note on a call. -/
theorem not_notes_arity {file : String} (name : String) (expected given : Int)
    {location declaredAt : Option Location} (hfile : ∀ place ∈ declaredAt, place.file = file)
    {place : Location} (hplace : place.file = file) :
    ¬ (arity name expected given location declaredAt).Notes place := by
  rintro ⟨hint, hmem, zs, hzs⟩
  obtain ⟨declared, hdeclared, rfl⟩ := Option.mem_map.mp hmem
  rw [toList_note, ← List.append_assoc, String.toList_append] at hzs
  obtain ⟨hfront, _⟩ :=
    Location.append_text_inj (hplace.trans (hfile declared hdeclared).symm) hzs
  -- the words before the place differ in their last but four characters
  have hcall : "in the expansion of the call at ".toList =
      "in the expansion of the cal".toList ++ "l at ".toList := by decide
  have hat : " is declared at ".toList = " is declare".toList ++ "d at ".toList := by decide
  rw [String.toList_append, hcall, hat, ← List.append_assoc, ← List.append_assoc] at hfront
  exact absurd (List.append_inj_right' hfront (by decide)) (by decide)

end Diagnostic

/-- **The note names the origin** and no other place of the file, if nothing else ends the
hint like a note. -/
theorem notes_withOrigin {file : String} {d : Diagnostic} {origin : Option Location}
    (hd : ∀ place, place.file = file → ¬ d.Notes place)
    (horigin : ∀ place ∈ origin, place.file = file) (place : Location)
    (hplace : place.file = file) : (withOrigin origin d).Notes place ↔ origin = some place := by
  cases origin with
  | none =>
      have hnot := hd place hplace
      simpa [withOrigin] using hnot
  | some top =>
      obtain ⟨before, hhint⟩ := d.exists_hint_remark (Diagnostic.note top)
      have hwith : (withOrigin (some top) d).hint = some (before ++ Diagnostic.note top) := hhint
      have hfile : place.file = top.file := hplace.trans (horigin top rfl).symm
      unfold Diagnostic.Notes
      rw [hwith]
      simp only [Option.mem_some, exists_eq_left', Option.some.injEq]
      constructor
      · intro hsuffix
        obtain ⟨zs, hzs⟩ := hsuffix
        rw [String.toList_append, Diagnostic.toList_note, Diagnostic.toList_note,
          ← List.append_assoc, ← List.append_assoc] at hzs
        exact (Location.append_text_inj hfile hzs).2.symm
      · intro heq
        rw [heq, String.toList_append]
        exact List.suffix_append _ _

/-! ## What a run meets on its way -/

namespace Expansion

variable {program : Program}

/-- Below a call that came from an origin, everything comes from that origin. -/
theorem noticeLayer_map_some (k : Nat) (cs : List Call) (origin : Location) :
    noticeLayer program k (cs.map fun c => ⟨c, some origin⟩) =
      (program.layer k cs).map fun c => ⟨c, some origin⟩ := by
  induction k generalizing cs with
  | zero => rfl
  | succ k ih =>
      have hunder : (cs.map fun c => (⟨c, some origin⟩ : Notice)).flatMap (Notice.under program) =
          (cs.flatMap program.subcalls).map fun c => ⟨c, some origin⟩ := by
        rw [List.flatMap_map, List.map_flatMap]
        rfl
      rw [noticeLayer, hunder, ih, layer]

/-- Below a call of the program itself, everything comes from that call. -/
theorem noticeLayer_top {top : Call} {place : Location} (h : top.location = some place) (k : Nat) :
    noticeLayer program k [⟨top, none⟩] =
      (program.layer k [top]).map fun c => ⟨c, if k = 0 then none else top.location⟩ := by
  cases k with
  | zero => rfl
  | succ k =>
      have hunder : [(⟨top, none⟩ : Notice)].flatMap (Notice.under program) =
          ([top].flatMap program.subcalls).map fun c => ⟨c, some place⟩ := by
        simp [Notice.under, h]
      rw [noticeLayer, hunder, noticeLayer_map_some, layer]
      simp [h]

theorem noticeLayer_calls {cs : List Call} (h : ∀ top ∈ cs, ∃ place, top.location = some place)
    (k : Nat) :
    noticeLayer program k (cs.map fun c => ⟨c, none⟩) =
      cs.flatMap fun top =>
        (program.layer k [top]).map fun c => ⟨c, if k = 0 then none else top.location⟩ := by
  induction cs with
  | nil => simp
  | cons top cs ih =>
      obtain ⟨⟨place, hplace⟩, hcs⟩ := List.forall_mem_cons.mp h
      rw [List.map_cons, ← List.singleton_append, noticeLayer_append, ih hcs,
        noticeLayer_top hplace, List.flatMap_cons]

/-- **The bad calls on the way of a run**: those below each call of the program itself, which
is their origin. -/
theorem trail_trace (h : ∀ top ∈ program.calls, ∃ place, top.location = some place) (n : Nat) :
    trail program n (notices (trace none program)) =
      (List.range n).flatMap fun k => program.calls.flatMap fun top =>
        ((program.layer k [top]).filter fun c => !program.expands c).map fun c =>
          ⟨c, if k = 0 then none else top.location⟩ := by
  rw [trail, notices_trace]
  simp only [noticeLayer_calls h, bad, List.filter_flatMap, List.filter_map]
  rfl

/-- Their sites are the bad sites. -/
theorem filterMap_site_trail (h : ∀ top ∈ program.calls, ∃ place, top.location = some place)
    (n : Nat) :
    (trail program n (notices (trace none program))).filterMap Notice.site? =
      program.badSites n := by
  rw [trail_trace h, badSites]
  simp only [List.filterMap_flatMap, List.filterMap_map]
  rfl

theorem mem_of_mem_unseen {seen : List Sighting} {ns : List Notice} {n : Notice}
    (h : n ∈ unseen seen ns) : n ∈ ns := by
  induction ns generalizing seen with
  | nil => cases h
  | cons m ns ih =>
      rw [unseen] at h
      split at h
      · exact List.mem_cons_of_mem m (ih h)
      · rcases List.mem_cons.mp h with rfl | h
        · exact List.mem_cons_self
        · exact List.mem_cons_of_mem m (ih h)

end Expansion

/-! ## Reports -/

/-- A warning reports the bad call that is written at a site: it says which of the two ways
of being bad it is, and its hint ends with the note on the origin if there is one. -/
structure Diagnostic.Reports (program : Program) (file : String)
    (site : Location × Option Location) (d : Diagnostic) : Prop where
  severity : d.severity = .warning
  location : d.location = some site.1
  cause : ∃ w ∈ program.writtenCalls, w.location = some site.1 ∧
    match program.declared? w.name with
    | none => ∃ similar, d.cause = .undeclared w.name similar
    | some declared => w.arguments.length ≠ declared.parameters.length ∧
        d.cause = .arity w.name declared.parameters.length w.arguments.length
  note : ∀ place, place.file = file → (d.Notes place ↔ site.2 = some place)

section

variable {file source : String} {program : Program}

/-- A diagnostic that says what is wrong with a call becomes a report of it. -/
theorem Diagnostic.Reports.of_withOrigin {d : Diagnostic} {site : Location}
    {origin : Option Location} {w : Call} (hw : w ∈ program.writtenCalls)
    (hsite : w.location = some site) (hlocation : d.location = w.location)
    (hcause : match program.declared? w.name with
      | none => ∃ similar, d.cause = .undeclared w.name similar
      | some declared => w.arguments.length ≠ declared.parameters.length ∧
          d.cause = .arity w.name declared.parameters.length w.arguments.length)
    (hd : ∀ place, place.file = file → ¬ d.Notes place)
    (horigin : ∀ place ∈ origin, place.file = file) :
    Diagnostic.Reports program file (site, origin)
      { withOrigin origin d with severity := .warning } := by
  obtain ⟨hcause', hlocation', _⟩ := withOrigin_fields origin d
  rw [← hcause'] at hcause
  constructor
  · rfl
  · exact hlocation'.trans (hlocation.trans hsite)
  · exact ⟨w, hw, hsite, hcause⟩
  · exact notes_withOrigin hd horigin

/-- **The warning of a bad call reports its site.** -/
theorem reports_warning (h : (ofSource file source).outcome = .ok program) {c w : Call}
    (hw : w ∈ program.writtenCalls) (halike : c.Alike w) (hbad : program.expands c = false)
    {origin : Option Location} (horigin : ∀ place ∈ origin, place.file = file)
    {site : Location} (hsite : c.location = some site) :
    Diagnostic.Reports program file (site, origin)
      (Notice.warning (Table.collect program).1 ⟨c, origin⟩) := by
  have hsite' : w.location = some site := halike.location ▸ hsite
  unfold Notice.warning
  dsimp only
  rw [Table.declares_collect program c.name]
  cases hdeclared : program.declared? c.name with
  | none =>
      refine .of_withOrigin hw hsite' halike.location ?_
        (fun place _ => Diagnostic.not_notes_undeclared _ _ _ place) horigin
      rw [← halike.name, hdeclared]
      exact ⟨_, rfl⟩
  | some declared =>
      have hmem := mem_preorder (mem_declarations (List.mem_of_find?_eq_some hdeclared))
      obtain ⟨declaredAt, hplace, hfile⟩ := exists_place_of_mem h hmem
      have hlocation : ∀ place ∈ declared.location, place.file = file := by
        intro place hmem
        rw [show declared.location = some declaredAt from hplace, Option.mem_some] at hmem
        rw [← hmem, hfile]
      have hcount : c.arguments.length ≠ declared.parameters.length := by
        intro hcount
        have htarget := target?_eq_some.mpr ⟨hdeclared, hcount⟩
        rw [expands, htarget] at hbad
        cases hbad
      refine .of_withOrigin hw hsite' halike.location ?_
        (fun place hplace => Diagnostic.not_notes_arity _ _ _ hlocation hplace) horigin
      rw [← halike.name, hdeclared, ← halike.count]
      exact ⟨hcount, rfl⟩

/-- What is true of each notice with a site is true of all sites and warnings in order. -/
theorem forall₂_filterMap_site {R : Location × Option Location → Diagnostic → Prop}
    {table : Table} {ns : List Notice}
    (h : ∀ n ∈ ns, ∃ site, n.call.location = some site ∧ R (site, n.origin) (n.warning table)) :
    List.Forall₂ R (ns.filterMap Notice.site?) (ns.map (Notice.warning table)) := by
  induction ns with
  | nil => exact .nil
  | cons n ns ih =>
      obtain ⟨⟨site, hsite, hR⟩, hns⟩ := List.forall_mem_cons.mp h
      have hn : n.site? = some (site, n.origin) := by simp [Notice.site?, hsite]
      rw [List.filterMap_cons_some hn, List.map_cons]
      exact .cons hR (ih hns)

theorem nodup_eraseDups (sites : List (Location × Option Location)) : sites.eraseDups.Nodup := by
  match sites with
  | [] => simp
  | site :: sites =>
      rw [List.eraseDups_cons, List.nodup_cons]
      constructor
      · simp [List.mem_eraseDups]
      · exact nodup_eraseDups _
termination_by sites.length
decreasing_by exact Nat.lt_succ_of_le (List.length_filter_le _ _)

/-- What a run meets on its way through a program that was read. -/
theorem exists_written_of_mem_trail (h : (ofSource file source).outcome = .ok program) {n : Nat}
    {notice : Notice} (hmem : notice ∈ trail program n (notices (trace none program))) :
    ∃ w ∈ program.writtenCalls, notice.call.Alike w ∧ program.expands notice.call = false ∧
      ∀ place ∈ notice.origin, place.file = file := by
  have htops : ∀ top ∈ program.calls, ∃ place, top.location = some place ∧ place.file = file :=
    fun top htop => exists_location h (mem_writtenCalls_of_mem_calls htop)
  rw [trail_trace fun top htop => (htops top htop).imp fun _ => And.left] at hmem
  simp only [List.mem_flatMap, List.mem_map, List.mem_filter] at hmem
  obtain ⟨k, _, top, htop, c, ⟨hc, hbad⟩, rfl⟩ := hmem
  obtain ⟨w, hw, halike⟩ := exists_written_of_mem_layer htop hc
  refine ⟨w, hw, halike, by simpa using hbad, ?_⟩
  intro place hplace
  dsimp only at hplace
  split at hplace
  · cases hplace
  · obtain ⟨place', hplace', hfile⟩ := htops top htop
    rw [hplace', Option.mem_some] at hplace
    rw [← hplace, hfile]

/-- **Every bad call is reported once for each top-level call it comes from.**  A lenient run
that returns enters the repeated declarations first and then, in order, one report for each
pair of a site and an origin.  The pairs are those of `badSites`, each where it occurs first;
they are all there are, and an origin is always the outermost call. -/
theorem reports_once (file source : String) (program : Program) (limits : Limits)
    (capacity : Int) (is : List Instruction)
    (hread : (ofSource file source).outcome = .ok program)
    (hreturns : (Expander.expand { settings := ⟨false, limits⟩, ledger := { capacity := capacity } }
      program).outcome = .ok is) :
    let ledger := (Expander.expand
      { settings := ⟨false, limits⟩, ledger := { capacity := capacity } } program).expander.ledger
    let sites := (program.badSites limits.passes).eraseDups
    ∃ duplicates reports,
      ledger.errors = #[] ∧ ledger.warnings.toList = duplicates ++ reports ∧
      (∀ d ∈ duplicates, ∃ name first, d.cause = .duplicate name first) ∧
      List.Forall₂ (Diagnostic.Reports program file) sites reports ∧
      sites.Nodup ∧ (∀ site origin, (site, origin) ∈ sites ↔ program.BadAt site origin) ∧
      ∀ site place, (site, some place) ∈ sites →
        (∃ top ∈ program.calls, top.location = some place) ∧
          ∀ k, ∀ c ∈ program.layer (k + 1) program.calls, c.location ≠ some place := by
  intro ledger sites
  have htops : ∀ top ∈ program.calls, ∃ place, top.location = some place := fun top htop =>
    (exists_location hread (mem_writtenCalls_of_mem_calls htop)).imp fun _ => And.left
  have hwritten := fun notice => @exists_written_of_mem_trail file source program hread
    limits.passes notice
  -- the sites that are entered are the bad ones, each where it occurs first
  have hsites : (unseen [] (trail program limits.passes
      (notices (trace none program)))).filterMap Notice.site? = sites := by
    rw [filterMap_site_unseen, filterMap_site_trail htops]
    intro n hn m hm hlocation
    obtain ⟨w, hw, halike, _⟩ := hwritten n hn
    obtain ⟨w', hw', halike', _⟩ := hwritten m hm
    have hsame : w = w' :=
      eq_of_location_eq hread hw hw' (by rw [← halike.location, hlocation, halike'.location])
    rw [halike.name, halike'.name, hsame]
  have hmem : ∀ site origin, (site, origin) ∈ sites ↔ program.BadAt site origin := by
    intro site origin
    rw [List.mem_eraseDups]
    exact mem_badSites_iff hread (layers_of_expand_eq_ok hreturns).1 site origin
  obtain ⟨herrors, hwarnings⟩ := expand_entered rfl hreturns
  refine ⟨(Table.collect program).2, _, herrors, hwarnings,
    fun d hd => Table.cause_of_mem_collectFrom hd, ?_, nodup_eraseDups _, hmem, ?_⟩
  · rw [← hsites]
    refine forall₂_filterMap_site fun n hn => ?_
    obtain ⟨w, hw, halike, hbad, horigin⟩ := hwritten n (mem_of_mem_unseen hn)
    obtain ⟨site, hsite, _⟩ := exists_location hread hw
    rw [← halike.location] at hsite
    exact ⟨site, hsite, reports_warning hread hw halike hbad horigin hsite⟩
  · intro site place hsite
    obtain ⟨w, _, _, _, ⟨hnone, _⟩ | ⟨top, htop, hplace, _⟩⟩ := (hmem site (some place)).mp hsite
    · cases hnone
    · refine ⟨⟨top, htop, hplace.symm⟩, fun k c hc => ?_⟩
      rw [hplace]
      exact location_ne_of_mem_layer hread htop hc

end

/-- The one bad call of `twice` is written in a body that is unfolded twice, and is reported
for each of the two calls. -/
theorem reports_twice :
    let e : Expander := { settings := ⟨false, { passes := 2, calls := 5 }⟩ }
    (ofSource "f" twice).outcome = .ok twiceProgram ∧
      (∃ is, (e.expand twiceProgram).outcome = .ok is) ∧
      ∃ first second, (e.expand twiceProgram).expander.ledger.warnings.toList = [first, second] ∧
        Diagnostic.Reports twiceProgram "f" (⟨"f", 2, 1⟩, some ⟨"f", 3, 1⟩) first ∧
        Diagnostic.Reports twiceProgram "f" (⟨"f", 2, 1⟩, some ⟨"f", 4, 1⟩) second := by
  intro e
  have hreturns : (e.expand twiceProgram).outcome =
      .ok [⟨.hlt, some "x", some "br", some ⟨"f", 1, 7⟩⟩,
        ⟨.hlt, some "x", some "b", some ⟨"f", 1, 7⟩⟩] := rfl
  obtain ⟨duplicates, reports, _, hwarnings, _, hreports, _⟩ :=
    reports_once "f" twice twiceProgram { passes := 2, calls := 5 } 100 _ read_twice hreturns
  have hsites : (twiceProgram.badSites 2).eraseDups =
      [(⟨"f", 2, 1⟩, some ⟨"f", 3, 1⟩), (⟨"f", 2, 1⟩, some ⟨"f", 4, 1⟩)] := by decide
  rw [hsites] at hreports
  cases hreports with
  | cons hfirst hrest =>
      cases hrest with
      | cons hsecond hnil =>
          cases hnil
          have hsize : (e.expand twiceProgram).expander.ledger.warnings.toList.length = 2 := rfl
          obtain rfl : duplicates = [] := by
            have hlength := congrArg List.length hwarnings
            rw [hsize, List.length_append, List.length_cons] at hlength
            exact List.length_eq_zero_iff.mp (by simpa using hlength)
          exact ⟨read_twice, ⟨_, hreturns⟩, _, _, hwarnings, hfirst, hsecond⟩

end MacroAsm
