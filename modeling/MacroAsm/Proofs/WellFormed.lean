import Mathlib.Data.List.Nodup
import Mathlib.Data.Option.Basic
import MacroAsm.Proofs.Evaluation
import MacroAsm.Proofs.Scanning

/-!
# MacroAsm.Proofs.WellFormed

What every program that was read from a text has in common, down to the bodies of its
declarations.  `Program.preorder` lists the items of a program at every depth.

* `ofSource_eq_ok_iff_body` — a text is read as a program if its tokens, up to the end of
  input, spell it;
* `proper_of_ofSource` — names are names, labels are labels, operands are words and
  comments are lines;
* `exists_places_of_ofSource` — items know where they were written, and in preorder
  these places only move forward;
* `eq_of_place_eq` — so a place belongs to a single item;
* `well_formed_of_ofSource` — all of this together.
-/

namespace MacroAsm

open Grammar

/-! ## Items at every depth -/

mutual
/-- An item and the items inside it; a declaration stands before its body. -/
def Item.preorder : Item → List Item
  | .declaration name parameters body place =>
    .declaration name parameters body place :: Program.preorder body
  | .instruction i => [.instruction i]
  | .call c => [.call c]
  | .comment text place => [.comment text place]

/-- The items of a program, at every depth. -/
def Program.preorder : List Item → List Item
  | [] => []
  | x :: xs => x.preorder ++ Program.preorder xs
end

namespace Item

/-- Where an item was written. -/
def place : Item → Option Location
  | instruction i => i.location
  | call c => c.location
  | comment _ place => place
  | declaration _ _ _ place => place

/-- What an item says is what it can say; the body of a declaration is left to its own
items. -/
def Proper : Item → Prop
  | instruction i => (∀ label ∈ i.label, Label label) ∧ ∀ operand ∈ i.operand, AnyWord operand
  | call c => Name c.name ∧ ∀ argument ∈ c.arguments, Name argument
  | comment text _ => OneLine text
  | declaration name parameters _ _ => Name name ∧ ∀ parameter ∈ parameters, Name parameter

instance : DecidablePred Proper
  | instruction i => inferInstanceAs (Decidable
      ((∀ label ∈ i.label, Label label) ∧ ∀ operand ∈ i.operand, AnyWord operand))
  | call c => inferInstanceAs (Decidable (Name c.name ∧ ∀ argument ∈ c.arguments, Name argument))
  | comment text _ => inferInstanceAs (Decidable (OneLine text))
  | declaration name parameters _ _ =>
    inferInstanceAs (Decidable (Name name ∧ ∀ parameter ∈ parameters, Name parameter))

theorem mem_preorder_self (x : Item) : x ∈ x.preorder := by
  cases x <;> simp [preorder]

end Item

namespace Program

/-- Every item of a program, at any depth, says what it can say. -/
def Proper (program : Program) : Prop := ∀ x ∈ preorder program, x.Proper

/-- The calls that are written in a program, those inside declarations included. -/
def writtenCalls (program : Program) : List Call := (preorder program).filterMap Item.call?

@[simp] theorem preorder_nil : preorder [] = [] := rfl

@[simp] theorem preorder_cons (x : Item) (xs : List Item) :
    preorder (x :: xs) = x.preorder ++ preorder xs := by
  rw [preorder]

theorem mem_preorder_iff {x : Item} {program : Program} :
    x ∈ preorder program ↔ ∃ y ∈ program, x ∈ y.preorder := by
  induction program with
  | nil => simp
  | cons y program ih => simp [ih]

/-- The items of a program itself are among those at every depth. -/
theorem mem_preorder {x : Item} {program : Program} (h : x ∈ program) : x ∈ preorder program :=
  mem_preorder_iff.mpr ⟨x, h, x.mem_preorder_self⟩

/-- So are the items of a body. -/
theorem mem_preorder_of_mem_body {x : Item} {program : Program} {d : Declaration}
    (hd : d.item ∈ program) (hx : x ∈ preorder d.body) : x ∈ preorder program := by
  refine mem_preorder_iff.mpr ⟨d.item, hd, ?_⟩
  rw [Declaration.item, Item.preorder]
  exact List.mem_cons_of_mem _ hx

theorem mem_declarations {d : Declaration} {program : Program} (h : d ∈ program.declarations) :
    d.item ∈ program := by
  obtain ⟨x, hx, hd⟩ := List.mem_filterMap.mp h
  cases x with
  | declaration name parameters body place =>
      cases hd
      exact hx
  | _ => cases hd

/-- The body of a macro is as proper as the program. -/
theorem Proper.body {program : Program} {d : Declaration} {name : String}
    (h : program.Proper) (hd : program.declared? name = some d) : Proper d.body :=
  fun x hx => h x (mem_preorder_of_mem_body (mem_declarations (List.mem_of_find?_eq_some hd)) hx)

end Program

/-! ## What the grammar gives -/

namespace Grammar

variable {xs ts rest : List Token} {x : Item} {p : Program}

theorem Listed.name {names : List String} (h : Listed ts names) : ∀ name ∈ names, Name name := by
  induction h with
  | one hname => simpa using hname
  | more hname _ _ ih => simpa using ⟨hname, ih⟩

theorem Names.name {names : List String} (h : Names ts names) : ∀ name ∈ names, Name name := by
  rcases h with ⟨_, rfl⟩ | hlisted
  · simp
  · exact hlisted.name

theorem Operand.anyWord {operand : Option String} (h : Operand ts operand)
    (hts : ∀ t ∈ ts, t.lexeme.Proper) : ∀ word ∈ operand, AnyWord word := by
  cases h with
  | missing => simp
  | word =>
      rintro word ⟨⟩
      exact hts _ List.mem_cons_self

/-- Proper tokens spell a proper item. -/
theorem Leaf.proper (h : Leaf xs x rest) (hxs : ∀ t ∈ xs, t.lexeme.Proper) : x.Proper := by
  cases h with
  | comment => exact hxs _ List.mem_cons_self
  | call hname _ hnames _ => exact ⟨hname, hnames.name⟩
  | instruction hline _ _ =>
      cases hline with
      | unlabelled _ hoperand =>
          exact ⟨nofun, hoperand.anyWord fun t ht => hxs t (List.mem_cons_of_mem _ ht)⟩
      | labelled hlabel _ hoperand =>
          refine ⟨?_, hoperand.anyWord fun t ht => hxs t (by simp [ht])⟩
          rintro label ⟨⟩
          exact hlabel

theorem Leaf.preorder (h : Leaf xs x rest) : x.preorder = [x] := by
  cases h <;> rw [Item.preorder]

/-- An item stands where its first token does. -/
theorem Leaf.exists_place (h : Leaf xs x rest) :
    ∃ t us, xs = t :: us ∧ x.place = some t.location := by
  cases h with
  | comment => exact ⟨_, _, rfl, rfl⟩
  | call _ _ _ _ => exact ⟨_, _, rfl, rfl⟩
  | instruction hline _ _ => cases hline <;> exact ⟨_, _, rfl, rfl⟩

/-- Proper tokens spell a proper program. -/
theorem Body.proper (h : Body ts p) (hts : ∀ t ∈ ts, t.lexeme.Proper) : p.Proper := by
  induction h with
  | nil => simp [Program.Proper]
  | newline _ ih => exact ih fun t ht => hts t (List.mem_cons_of_mem _ ht)
  | @leaf xs ts x p hleaf _ ih =>
      intro y hy
      rw [Program.preorder_cons, hleaf.preorder, List.singleton_append] at hy
      rcases List.mem_cons.mp hy with rfl | hy
      · exact hleaf.proper fun t ht => hts t (List.mem_append_left _ ht)
      · exact ih (fun t ht => hts t (List.mem_append_right _ ht)) y hy
  | @declaration xs inner ts name parameters place brace body p hopening _ _ _ ihbody ih =>
      have hinner : ∀ t ∈ inner, t.lexeme.Proper := fun t ht => hts t (by simp [ht])
      have hrest : ∀ t ∈ ts, t.lexeme.Proper := fun t ht => hts t (by simp [ht])
      intro y hy
      rw [Program.preorder_cons, Item.preorder, List.cons_append] at hy
      rcases List.mem_cons.mp hy with rfl | hy
      · obtain ⟨hname, _, hnames, _, _, _, _, _⟩ := hopening
        exact ⟨hname, hnames.name⟩
      · rcases List.mem_append.mp hy with hbody | hp
        · exact ihbody hinner y hbody
        · exact ih hrest y hp

/-- The places of the items, in preorder, are found among those of the tokens, in the
same order. -/
theorem Body.places_sublist (h : Body ts p) :
    List.Sublist ((Program.preorder p).map Item.place) (ts.map fun t => some t.location) := by
  induction h with
  | nil => exact List.Sublist.slnil
  | newline _ ih => exact ih.cons _
  | @leaf xs ts x p hleaf _ ih =>
      obtain ⟨t, us, rfl, hplace⟩ := hleaf.exists_place
      rw [Program.preorder_cons, hleaf.preorder, List.singleton_append, List.map_cons, hplace,
        List.cons_append, List.map_cons, List.map_append]
      exact (ih.trans (List.sublist_append_right _ _)).cons_cons _
  | @declaration xs inner ts name parameters place brace body p hopening _ _ _ ihbody ih =>
      obtain ⟨_, _, _, _, _, _, _, _⟩ := hopening
      rw [Program.preorder_cons, Item.preorder, List.cons_append, List.map_cons, List.map_append,
        List.cons_append, List.map_cons, List.map_append, List.map_append, List.map_cons]
      exact ((ihbody.append (ih.cons _)).trans (List.sublist_append_right _ _)).cons_cons _

end Grammar

/-! ## Programs that were read -/

namespace Program

variable {file source : String} {p : Program}

/-- **Reading a text** is spelling its tokens, up to the end of input. -/
theorem ofSource_eq_ok_iff_body :
    (ofSource file source).outcome = .ok p ↔
      ∃ ts stop, Token.scan file source = ⟨ts ++ [⟨.endOfInput, stop⟩], none⟩ ∧ Body ts p := by
  cases hscan : Token.scan file source with
  | mk tokens halt =>
      cases halt with
      | some halt =>
          obtain ⟨place, foreign⟩ := halt
          simp [ofSource, hscan]
      | none =>
          obtain ⟨ts, stop, rfl, hts⟩ := Token.exists_of_scanFrom hscan
          rw [outcome_ofSource hscan, ofTokens_eq_ok_iff, derives_append_end hts]
          simp

/-- **Programs that are read are proper**, down to the bodies of their declarations. -/
theorem proper_of_ofSource (h : (ofSource file source).outcome = .ok p) : p.Proper := by
  obtain ⟨ts, stop, hscan, hbody⟩ := ofSource_eq_ok_iff_body.mp h
  refine hbody.proper fun t ht => ?_
  have hmem : t ∈ (Token.scan file source).tokens := by simp [hscan, ht]
  exact Token.proper_of_mem_scanFrom hmem

/-- **The items of a program that is read know where they were written**, and in preorder
these places only move forward. -/
theorem exists_places_of_ofSource (h : (ofSource file source).outcome = .ok p) :
    ∃ places : List Location, (preorder p).map Item.place = places.map some ∧
      places.Pairwise Location.Before ∧ ∀ place ∈ places, place.file = file := by
  obtain ⟨ts, stop, hscan, hbody⟩ := ofSource_eq_ok_iff_body.mp h
  have htokens : (Token.scan file source).tokens = ts ++ [⟨.endOfInput, stop⟩] := by rw [hscan]
  have horder := Token.pairwise_before_scanFrom (.start file) source.toList
  have hsub : List.Sublist ((preorder p).map Item.place) ((ts.map (·.location)).map some) := by
    rw [List.map_map]
    exact hbody.places_sublist
  obtain ⟨places, hplaces, hmap⟩ := List.sublist_map_iff.mp hsub
  refine ⟨places, hmap, ?_, fun place hplace => ?_⟩
  · rw [← Token.scan, htokens] at horder
    exact (List.pairwise_map.mpr (List.pairwise_append.mp horder).1).sublist hplaces
  · obtain ⟨t, ht, rfl⟩ := List.mem_map.mp (hplaces.subset hplace)
    have hmem : t ∈ (Token.scan file source).tokens := by simp [htokens, ht]
    rcases Token.location_of_mem_scanFrom hmem with hstart | hafter
    · rw [hstart]
      rfl
    · exact hafter.1.symm

/-- Every item of a program that is read has a place in the file. -/
theorem exists_place_of_mem (h : (ofSource file source).outcome = .ok p) {x : Item}
    (hx : x ∈ preorder p) : ∃ place, x.place = some place ∧ place.file = file := by
  obtain ⟨places, hmap, _, hfile⟩ := exists_places_of_ofSource h
  have hmem : x.place ∈ places.map some := hmap ▸ List.mem_map_of_mem hx
  obtain ⟨place, hplace, heq⟩ := List.mem_map.mp hmem
  exact ⟨place, heq.symm, hfile place hplace⟩

/-- No place is taken twice. -/
theorem nodup_places_of_ofSource (h : (ofSource file source).outcome = .ok p) :
    ((preorder p).map Item.place).Nodup := by
  obtain ⟨places, hmap, horder, _⟩ := exists_places_of_ofSource h
  rw [hmap]
  exact List.Nodup.map (Option.some_injective _) (horder.imp Location.Before.ne)

/-- No two items of a program that is read stand at the same place. -/
theorem eq_of_place_eq (h : (ofSource file source).outcome = .ok p) {x y : Item}
    (hx : x ∈ preorder p) (hy : y ∈ preorder p) (hplace : x.place = y.place) : x = y :=
  List.inj_on_of_nodup_map (nodup_places_of_ofSource h) hx hy hplace

/-- Of two items of a program that is read, the first in preorder stands before the second. -/
theorem pairwise_before_of_ofSource (h : (ofSource file source).outcome = .ok p) :
    (preorder p).Pairwise fun x y =>
      ∃ a b, x.place = some a ∧ y.place = some b ∧ a.Before b := by
  obtain ⟨places, hmap, horder, _⟩ := exists_places_of_ofSource h
  have hplaces : ((preorder p).map Item.place).Pairwise fun m n =>
      ∃ a b, m = some a ∧ n = some b ∧ a.Before b := by
    rw [hmap, List.pairwise_map]
    exact horder.imp fun hab => ⟨_, _, rfl, rfl, hab⟩
  exact List.pairwise_map.mp hplaces

/-- **Programs that are read are well formed**, down to the bodies of their declarations: names
are names, labels are labels and not opcodes, operands are words and comments are lines.  Every
item has a place in the file.  In preorder these places only move forward, by lines and then by
columns, and so no two items share one. -/
theorem well_formed_of_ofSource (file source : String) (p : Program)
    (h : (ofSource file source).outcome = .ok p) :
    (∀ x ∈ preorder p, x.Proper) ∧
    (∀ x ∈ preorder p, ∃ place, x.place = some place ∧ place.file = file) ∧
    ((preorder p).Pairwise fun x y => ∃ a b, x.place = some a ∧ y.place = some b ∧
      (a.line < b.line ∨ a.line = b.line ∧ a.column < b.column)) ∧
    ((preorder p).map Item.place).Nodup := by
  refine ⟨proper_of_ofSource h, fun x hx => exists_place_of_mem h hx, ?_,
    nodup_places_of_ofSource h⟩
  refine (pairwise_before_of_ofSource h).imp ?_
  rintro x y ⟨a, b, ha, hb, hbefore⟩
  exact ⟨a, b, ha, hb, hbefore.2⟩

/-- A declaration, and the instruction in its body. -/
theorem well_formed_declaration :
    let source := "A(\nx)=\x7bHLT BR\x7d"
    (ofSource "f" source).outcome = .ok declarationProgram ∧
      (∀ x ∈ preorder declarationProgram, x.Proper) ∧
      (preorder declarationProgram).map Item.place =
        [some ⟨"f", 1, 1⟩, some ⟨"f", 2, 5⟩] ∧
      ((preorder declarationProgram).map Item.place).Nodup := by
  intro source
  have hscan : Token.scan "f" source = ⟨declarationTokens, none⟩ := by decide +kernel
  have hread := read_declarationTokens hscan
  obtain ⟨hproper, _, _, hnodup⟩ := well_formed_of_ofSource "f" source _ hread
  exact ⟨hread, hproper, rfl, hnodup⟩

end Program

end MacroAsm
