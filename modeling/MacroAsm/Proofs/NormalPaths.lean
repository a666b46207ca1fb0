import Mathlib.Data.String.Basic
import MacroAsm.Proofs.Storage

/-!
# MacroAsm.Proofs.NormalPaths

The normal form of a path.

* `normal_sublist` — it is made of characters of the path, and so no longer than the path;
* `steps_normal` — its steps are those of the path but for `.`, which only stands for the
  slashes of its root;
* `locate_normal_of_found` — so a path that leads to a file or a device still does so in normal
  form.
-/

namespace MacroAsm

/-- Whether a path leads to something that has content. -/
def Entry.isFound : Entry → Bool
  | file _ => true
  | device _ => true
  | _ => false

namespace Path

/-! ## Pieces -/

theorem pieces_ne_nil (cs : List Char) : pieces cs ≠ [] := by
  fun_cases pieces cs <;> simp

theorem pieces_eq_splitOn (cs : List Char) : pieces cs = cs.splitOn '/' := by
  fun_induction pieces cs with
  | case1 => rfl
  | case2 rest ih =>
    rw [List.splitOn, List.splitOnP_cons_eq_if_modifyHead, ih]
    rfl
  | case3 c rest hc hrest ih => exact absurd hrest (pieces_ne_nil rest)
  | case4 c rest hc piece more hrest ih =>
    have hslash : (c == '/') = false := beq_false_of_ne hc
    rw [List.splitOn, List.splitOnP_cons_eq_if_modifyHead, hslash, ← List.splitOn, ← ih, hrest]
    rfl

/-- Pieces joined by slashes are the path again. -/
theorem intercalate_pieces (cs : List Char) : ['/'].intercalate (pieces cs) = cs := by
  rw [pieces_eq_splitOn, List.intercalate_splitOn]

theorem pieces_intercalate {ps : List (List Char)} (hne : ps ≠ []) (h : ∀ p ∈ ps, '/' ∉ p) :
    pieces (['/'].intercalate ps) = ps := by
  rw [pieces_eq_splitOn, List.splitOn_intercalate '/' h hne]

theorem slash_notMem_of_mem_pieces {cs p : List Char} (h : p ∈ pieces cs) : '/' ∉ p := by
  fun_induction pieces cs generalizing p with
  | case1 =>
    rw [List.mem_singleton.mp h]
    exact List.not_mem_nil
  | case2 rest ih =>
    rcases List.mem_cons.mp h with rfl | h
    · exact List.not_mem_nil
    · exact ih h
  | case3 c rest hc hrest ih => exact absurd hrest (pieces_ne_nil rest)
  | case4 c rest hc piece more hrest ih =>
    rw [hrest] at ih
    rcases List.mem_cons.mp h with rfl | h
    · have hpiece : '/' ∉ piece := ih List.mem_cons_self
      simp [hpiece, Ne.symm hc]
    · exact ih (List.mem_cons_of_mem piece h)

/-- The pieces that name something: neither empty nor a dot. -/
def namings (ps : List (List Char)) : List (List Char) := ps.filter fun p => p != [] && p != ['.']

/-- The steps of a path that name something. -/
def names (path : String) : List String := (steps path).filter (· != ".")

theorem ofList_eq_dot_iff {p : List Char} : String.ofList p = "." ↔ p = ['.'] := by
  constructor
  · intro h
    simpa using congrArg String.toList h
  · rintro rfl
    rfl

theorem names_eq_map (path : String) :
    names path = (namings (pieces path.toList)).map String.ofList := by
  rw [names, steps, namings]
  generalize pieces path.toList = ps
  induction ps with
  | nil => rfl
  | cons p ps ih =>
    by_cases hempty : p = []
    · simpa [hempty] using ih
    · by_cases hdot : p = ['.']
      · subst hdot
        simpa using ih
      · have hname : String.ofList p ≠ "." := by rwa [Ne, ofList_eq_dot_iff]
        simpa [hempty, hdot, hname] using ih

/-- Fewer pieces make a shorter text. -/
theorem intercalate_sublist {α : Type} {sep : List α} {xs ys : List (List α)}
    (h : xs.Sublist ys) : (sep.intercalate xs).Sublist (sep.intercalate ys) := by
  induction h with
  | slnil => exact List.Sublist.refl _
  | @cons xs ys y h ih =>
    cases ys with
    | nil =>
      rw [List.sublist_nil.mp h]
      exact List.nil_sublist _
    | cons z zs =>
      rw [List.intercalate_cons_cons]
      exact ih.trans (List.sublist_append_right _ _)
  | @cons_cons xs ys x h ih =>
    cases ys with
    | nil =>
      rw [List.sublist_nil.mp h]
    | cons z zs =>
      rw [List.intercalate_cons_cons]
      cases xs with
      | nil =>
        rw [List.intercalate_singleton, List.append_assoc]
        exact List.sublist_append_left _ _
      | cons y ys =>
        rw [List.intercalate_cons_cons]
        exact ih.append_left _

/-! ## Roots -/

theorem root_cases (path : String) : root path = "" ∨ root path = "/" ∨ root path = "//" := by
  unfold root
  split <;> simp

/-- A path starts with its root, which names nothing. -/
theorem exists_root_append (path : String) :
    ∃ rest, path.toList = (root path).toList ++ rest ∧
      namings (pieces path.toList) = namings (pieces rest) := by
  unfold root
  split
  · rename_i rest h
    exact ⟨'/' :: '/' :: rest, h, by rw [h]; rfl⟩
  · rename_i rest _ h
    exact ⟨rest, h, by rw [h]; rfl⟩
  · rename_i rest _ _ h
    exact ⟨rest, h, by rw [h]; rfl⟩
  · exact ⟨path.toList, rfl, rfl⟩

/-! ## Normal forms -/

section

variable {path : String}

theorem isEmpty_normal (path : String) : (normal path).isEmpty = false := by
  unfold normal
  dsimp only
  split
  · rfl
  · rename_i hne
    simpa using hne

/-- What names something does not start with a slash. -/
theorem exists_cons_of_names (h : names path ≠ []) :
    ∃ c cs, ['/'].intercalate (namings (pieces path.toList)) = c :: cs ∧ c ≠ '/' := by
  rw [names_eq_map] at h
  cases hnamings : namings (pieces path.toList) with
  | nil => simp [hnamings] at h
  | cons p ps =>
    have hp : p ∈ namings (pieces path.toList) := by simp [hnamings]
    obtain ⟨hmem, hnaming⟩ := List.mem_filter.mp hp
    have hslash := slash_notMem_of_mem_pieces hmem
    cases p with
    | nil => simp at hnaming
    | cons c p =>
      have hc : c ≠ '/' := by
        rintro rfl
        exact hslash List.mem_cons_self
      cases ps with
      | nil => exact ⟨c, p, List.intercalate_singleton, hc⟩
      | cons q ps => exact ⟨c, _, List.intercalate_cons_cons, hc⟩

/-- In normal form, a path that names something is its names behind its root. -/
theorem toList_normal (h : names path ≠ []) :
    (normal path).toList =
      (root path).toList ++ ['/'].intercalate (namings (pieces path.toList)) := by
  have htext : (root path ++ "/".intercalate (names path)).toList =
      (root path).toList ++ ['/'].intercalate (namings (pieces path.toList)) := by
    rw [String.toList_append, String.toList_intercalate, names_eq_map, List.map_map]
    simp
  obtain ⟨c, cs, hcons, -⟩ := exists_cons_of_names h
  have hne : (root path ++ "/".intercalate (names path)).isEmpty ≠ true := by
    rw [Ne, String.isEmpty_iff, ← String.toList_inj, htext, hcons]
    simp
  rw [← htext, normal]
  exact congrArg String.toList (if_neg hne)

/-- The normal form of a path is made of some of its characters. -/
theorem normal_sublist (h : names path ≠ []) : (normal path).toList.Sublist path.toList := by
  obtain ⟨rest, hrest, hnamings⟩ := exists_root_append path
  rw [toList_normal h, hnamings]
  conv_rhs => rw [hrest, ← intercalate_pieces rest]
  exact (intercalate_sublist List.filter_sublist).append_left _

theorem isTooLong_normal (h : names path ≠ []) (hlong : isTooLong path = false) :
    isTooLong (normal path) = false := by
  have hle : (normal path).utf8ByteSize ≤ path.utf8ByteSize := by
    rw [← String.utf8Len_toList, ← String.utf8Len_toList]
    exact String.utf8Len_le_of_sublist (normal_sublist h)
  simp only [isTooLong, decide_eq_false_iff_not] at hlong ⊢
  omega

theorem isValid_normal (h : isValid path = true) : isValid (normal path) = true := by
  by_cases hnames : names path = []
  · rw [normal, ← names, hnames]
    rcases root_cases path with hroot | hroot | hroot <;> rw [hroot] <;> decide
  · have hsub := (normal_sublist hnames).subset
    simp only [isValid, Bool.not_eq_true', List.contains_eq_mem, decide_eq_false_iff_not] at h ⊢
    exact fun hmem => h (hsub hmem)

theorem root_normal (h : names path ≠ []) : root (normal path) = root path := by
  obtain ⟨c, cs, hcons, hc⟩ := exists_cons_of_names h
  have hlist := toList_normal h
  rw [hcons] at hlist
  rcases root_cases path with hroot | hroot | hroot
  · rw [hroot] at hlist ⊢
    have hlist' : (normal path).toList = c :: cs := hlist
    grind [root]
  · rw [hroot] at hlist ⊢
    have hlist' : (normal path).toList = '/' :: c :: cs := hlist
    grind [root]
  · rw [hroot] at hlist ⊢
    have hlist' : (normal path).toList = '/' :: '/' :: c :: cs := hlist
    grind [root]

/-- The steps of a normal form: one `.` for every slash of the root, and the names. -/
theorem steps_normal (h : names path ≠ []) :
    steps (normal path) = List.replicate (root path).length "." ++ names path := by
  have hne : namings (pieces path.toList) ≠ [] := by
    rw [names_eq_map] at h
    simpa using h
  have hpieces : pieces (['/'].intercalate (namings (pieces path.toList))) =
      namings (pieces path.toList) :=
    pieces_intercalate hne fun p hp => slash_notMem_of_mem_pieces (List.mem_filter.mp hp).1
  have hmap : (namings (pieces path.toList)).map
      (fun p => if p.isEmpty then "." else String.ofList p) = names path := by
    rw [names_eq_map]
    refine List.map_congr_left fun p hp => if_neg ?_
    have hnaming := (List.mem_filter.mp hp).2
    simp_all
  rw [steps, toList_normal h]
  rcases root_cases path with hroot | hroot | hroot
  · rw [hroot, String.toList_empty, List.nil_append, hpieces, hmap]
    rfl
  · have hslash : pieces ("/".toList ++ ['/'].intercalate (namings (pieces path.toList))) =
        [] :: namings (pieces path.toList) := congrArg (List.cons []) hpieces
    rw [hroot, hslash, List.map_cons, hmap]
    rfl
  · have hslashes : pieces ("//".toList ++ ['/'].intercalate (namings (pieces path.toList))) =
        [] :: [] :: namings (pieces path.toList) := congrArg (fun ps => [] :: [] :: ps) hpieces
    rw [hroot, hslashes, List.map_cons, List.map_cons, hmap]
    rfl

end

end Path

namespace Store

variable {store : Store} {place steps : List String}

/-- Steps `.` in a folder that can be searched lead nowhere else. -/
theorem walk_dots (h : store.entryAt place = .folder) (hopen : store.system.bars place = none)
    (n : Nat) (steps : List String) :
    store.walk place (List.replicate n "." ++ steps) = store.walk place steps := by
  induction n with
  | zero => rfl
  | succ n ih =>
    rw [List.replicate_succ, List.cons_append, walk, h]
    simp only [hopen]
    exact ih

/-- What is found behind a step is found in a folder that can be searched. -/
theorem folder_of_found {step : String} (h : (store.walk place (step :: steps)).2.isFound = true) :
    store.entryAt place = .folder ∧ store.system.bars place = none := by
  rw [walk] at h
  cases hentry : store.entryAt place with
  | folder =>
    cases hopen : store.system.bars place with
    | some fault =>
      simp only [hentry, hopen] at h
      cases h
    | none => exact ⟨rfl, rfl⟩
  | _ =>
    rw [hentry] at h
    cases h

/-- A walk to something with content does not need its steps `.`. -/
theorem walk_names_of_found (h : (store.walk place steps).2.isFound = true) :
    store.walk place (steps.filter (· != ".")) = store.walk place steps := by
  induction steps generalizing place with
  | nil => rfl
  | cons step steps ih =>
    obtain ⟨hentry, hopen⟩ := folder_of_found h
    rw [walk, hentry] at h
    simp only [hopen] at h
    by_cases hdot : step = "."
    · subst hdot
      rw [walk, hentry]
      simp only [hopen]
      exact ih h
    · have hstep : (step == ".") = false := beq_false_of_ne hdot
      rw [List.filter_cons_of_pos (by simpa using hdot), walk, walk, hentry]
      simp only [hopen, hstep, Bool.false_eq_true, if_false] at h ⊢
      by_cases hup : (step == "..") = true
      · rw [if_pos hup] at h
        rw [if_pos hup, if_pos hup]
        exact ih h
      · rw [if_neg hup] at h
        rw [if_neg hup, if_neg hup]
        by_cases hlong : Path.isTooLongName step = true
        · rw [if_pos hlong] at h
          cases h
        · rw [if_neg hlong] at h
          rw [if_neg hlong, if_neg hlong]
          exact ih h

theorem entryAt_start (path : String) : store.entryAt (start path) = .folder := by
  unfold start
  split
  · rfl
  · rfl

/-- A path that leads anywhere is walked from its start. -/
theorem locate_eq_walk {path : String} (hvalid : Path.isValid path = true)
    (hne : path.isEmpty = false) (hlong : Path.isTooLong path = false) :
    store.locate path = store.walk (start path) (Path.steps path) := by
  simp only [locate, hvalid, hne, hlong, Bool.not_true, Bool.false_eq_true, if_false]

/-- A path that leads to something with content is one, and no longer than it may be. -/
theorem usable_of_found {path : String} (h : (store.look path).isFound = true) :
    Path.isValid path = true ∧ path.isEmpty = false ∧ Path.isTooLong path = false := by
  rw [look, locate] at h
  split at h
  · cases h
  · rename_i hvalid
    split at h
    · cases h
    · rename_i hempty
      split at h
      · cases h
      · rename_i hlong
        simp_all

/-- **A path that leads to a file or a device still does so in normal form.** -/
theorem locate_normal_of_found {path : String} (h : (store.look path).isFound = true) :
    store.locate (Path.normal path) = store.locate path := by
  obtain ⟨hvalid, hempty, hlong⟩ := usable_of_found h
  rw [look, locate_eq_walk hvalid hempty hlong] at h
  have hwalk : store.walk (start path) (Path.names path) =
      store.walk (start path) (Path.steps path) := walk_names_of_found h
  have hnames : Path.names path ≠ [] := by
    intro hnil
    rw [← hwalk, hnil, walk, entryAt_start] at h
    cases h
  obtain ⟨name, names, hcons⟩ := List.exists_cons_of_ne_nil hnames
  have hopen : store.system.bars (start path) = none := by
    rw [← hwalk, hcons] at h
    exact (folder_of_found h).2
  have hstart : start (Path.normal path) = start path := by
    rw [start, Path.root_normal hnames, start]
  rw [locate_eq_walk (Path.isValid_normal hvalid) (Path.isEmpty_normal path)
    (Path.isTooLong_normal hnames hlong), hstart, Path.steps_normal hnames,
    walk_dots (entryAt_start path) hopen, hwalk, locate_eq_walk hvalid hempty hlong]

end Store

end MacroAsm
