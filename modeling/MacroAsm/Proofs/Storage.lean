import MacroAsm.Store

/-!
# MacroAsm.Proofs.Storage

What writing a file does to a store, whatever the system has against it.

* `lookup_put_self`, `lookup_put_of_ne` — nothing but the place that is written to changes;
* `walk_put` — so the path to a new file still leads there;
* `received_accept` — a text reaches where its path leads, and nothing else changes;
* `write_of_none`, `write_of_some` — all of a text is written if the system has nothing against
  it (`writeFault?`); otherwise none of it is, or a beginning.
-/

namespace MacroAsm

/-- Whether a file can be put where a path leads. -/
def Entry.takesFile : Entry → Bool
  | file _ => true
  | vacant => true
  | _ => false

namespace Store

variable {store : Store} {place other : List String} {content : ByteArray}

/-- Why a text of some size cannot be written where a path leads. -/
def writeFault? (store : Store) (path : String) (size : Nat) : Option AccessFault :=
  let (place, entry) := store.locate path
  entry.fault?.or <| (store.system.barsWriting place).or <|
    (store.system.breaksWriting place size).map (·.2)

/-- A store once a text has reached where a path leads, and nothing else has changed: a file
holds it, or it was sent to a device. -/
inductive Received (store : Store) (path : String) (content : ByteArray) : Store → Prop
  | file {files : List (List String × ByteArray)} :
      (store.look path).takesFile = true →
      { store with files := files }.look path = .file content →
      (∀ place ≠ (store.locate path).1, files.lookup place = store.files.lookup place) →
      Received store path content { store with files := files }
  | device {old : ByteArray} :
      store.look path = .device old →
      Received store path content
        { store with sent := store.sent ++ [((store.locate path).1, content)] }

/-! ## Places -/

theorem lookup_put_self (store : Store) (place : List String) (content : ByteArray) :
    (store.put place content).files.lookup place = some content := by
  unfold put
  generalize store.files = files
  induction files with
  | nil => simp
  | cons f files ih =>
    obtain ⟨name, old⟩ := f
    by_cases hname : name = place
    · simp [hname]
    · have hne : (place == name) = false := beq_false_of_ne (Ne.symm hname)
      by_cases hany : files.any (·.1 == place)
      · simpa [hname, hany, hne, List.lookup_cons] using ih
      · simpa [hname, hany, hne, List.lookup_cons] using ih

theorem lookup_put_of_ne (store : Store) (content : ByteArray) (h : other ≠ place) :
    (store.put place content).files.lookup other = store.files.lookup other := by
  have hne : (other == place) = false := beq_false_of_ne h
  unfold put
  dsimp only
  split
  · generalize store.files = files
    induction files with
    | nil => rfl
    | cons f files ih =>
      obtain ⟨name, old⟩ := f
      by_cases hname : name = place
      · simpa [hname, List.lookup_cons, hne] using ih
      · rw [List.map_cons, if_neg (by simpa using hname), List.lookup_cons, List.lookup_cons, ih]
  · simp [List.lookup_append, List.lookup_cons, hne]

/-- Whether a place is a folder does not depend on the files. -/
theorem entryAt_put_of_folder (h : store.entryAt other = .folder) :
    (store.put place content).entryAt other = .folder := by
  unfold entryAt at h ⊢
  split at h
  · rename_i houtside
    exact if_pos houtside
  · rename_i houtside
    rw [if_neg houtside]
    split at h
    · cases h
    · rename_i hshown
      split at h
      · rename_i hfolder
        simp only [put, hshown]
        exact if_pos hfolder
      · split at h <;> cases h

/-- Where there may be a file, there is one once it is put there. -/
theorem entryAt_put_self (h : (store.entryAt place).takesFile = true) :
    (store.put place content).entryAt place = .file content := by
  unfold entryAt at h ⊢
  rw [lookup_put_self]
  split at h
  · cases h
  · rename_i houtside
    rw [if_neg houtside]
    split at h
    · cases h
    · rename_i hshown
      split at h
      · cases h
      · rename_i hfolder
        simp only [put, hshown]
        exact if_neg hfolder

/-! ## Paths -/

/-- **The way to a file** is the same once the file is there. -/
theorem walk_put {start steps : List String} {entry : Entry}
    (h : store.walk start steps = (place, entry)) (hentry : entry.takesFile = true) :
    (store.put place content).walk start steps = (place, .file content) := by
  fun_induction walk store start steps with
  | case1 start =>
    obtain ⟨rfl, rfl⟩ := Prod.mk.inj h
    rw [walk, entryAt_put_self hentry]
  | case3 start step steps hfolder hopen hstep ih =>
    have hopen' : (store.put place content).system.bars start = none := hopen
    rw [walk, entryAt_put_of_folder hfolder]
    simpa [hopen', hstep] using ih h
  | case4 start step steps hfolder hopen hdot hstep ih =>
    have hopen' : (store.put place content).system.bars start = none := hopen
    rw [walk, entryAt_put_of_folder hfolder]
    simpa [hopen', hdot, hstep] using ih h
  | case6 start step steps hfolder hopen hdot hup hlong ih =>
    have hopen' : (store.put place content).system.bars start = none := hopen
    rw [walk, entryAt_put_of_folder hfolder]
    simpa [hopen', hdot, hup, hlong] using ih h
  | _ => cases h; cases hentry

theorem locate_put {path : String} {entry : Entry} (h : store.locate path = (place, entry))
    (hentry : entry.takesFile = true) :
    (store.put place content).locate path = (place, .file content) := by
  unfold locate at h ⊢
  split at h
  · cases h; cases hentry
  · rename_i hvalid
    split at h
    · cases h; cases hentry
    · rename_i hempty
      split at h
      · cases h; cases hentry
      · rename_i hlong
        rw [if_neg hvalid, if_neg hempty, if_neg hlong]
        exact walk_put h hentry

/-- A path on which nothing goes wrong ends with a look at a place. -/
theorem entryAt_of_walk {start steps : List String} {entry : Entry}
    (h : store.walk start steps = (place, entry)) (hentry : entry.fault? = none) :
    store.entryAt place = entry := by
  fun_induction walk store start steps with
  | case1 start =>
    obtain ⟨rfl, rfl⟩ := Prod.mk.inj h
    rfl
  | case3 _ _ _ _ _ _ ih => exact ih h
  | case4 _ _ _ _ _ _ _ ih => exact ih h
  | case6 _ _ _ _ _ _ _ _ ih => exact ih h
  | _ => cases h; cases hentry

theorem entryAt_of_locate {path : String} {entry : Entry} (h : store.locate path = (place, entry))
    (hentry : entry.fault? = none) : store.entryAt place = entry := by
  unfold locate at h
  split at h
  · cases h; cases hentry
  · split at h
    · cases h; cases hentry
    · split at h
      · cases h; cases hentry
      · exact entryAt_of_walk h hentry

/-! ## Writing -/

/-- **A text reaches where its path leads**, and nothing else changes. -/
theorem received_accept {path : String} (h : (store.look path).fault? = none)
    (content : ByteArray) :
    Received store path content (store.accept (store.locate path).1 content) := by
  have hlocate : store.locate path = ((store.locate path).1, store.look path) := rfl
  have hplace : store.entryAt (store.locate path).1 = store.look path :=
    entryAt_of_locate hlocate h
  have hfile (htakes : (store.look path).takesFile = true) :
      Received store path content (store.put (store.locate path).1 content) := by
    refine .file htakes ?_ fun place hplace => lookup_put_of_ne store content hplace
    exact congrArg Prod.snd (locate_put hlocate htakes)
  unfold accept
  rw [hplace]
  cases hlook : store.look path with
  | file _ => exact hfile (by rw [hlook]; rfl)
  | vacant => exact hfile (by rw [hlook]; rfl)
  | device old => exact .device hlook
  | _ => rw [hlook] at h; cases h

/-- A text is written if there is nothing against it. -/
theorem write_of_none {path : String} (h : store.writeFault? path content.size = none) :
    (store.write path content).2 = .ok () ∧
      Received store path content (store.write path content).1 := by
  rw [writeFault?] at h
  rw [write]
  rcases hlocate : store.locate path with ⟨place, entry⟩
  rw [hlocate] at h
  cases hentry : entry.fault? with
  | some fault => simp [hentry] at h
  | none =>
    simp only [hentry, Option.none_or, Option.or_eq_none_iff, Option.map_eq_none_iff] at h
    have hlook : (store.look path).fault? = none := by rw [look, hlocate]; exact hentry
    have hreceived := received_accept hlook content
    rw [hlocate] at hreceived
    simp only [hentry, writeAt, h.1, h.2]
    exact ⟨trivial, hreceived⟩

/-- A text that cannot be written leaves the store as it was, or a beginning of itself if the
writing has broken off. -/
theorem write_of_some {path : String} {fault : AccessFault}
    (h : store.writeFault? path content.size = some fault) :
    (∃ tried, (store.write path content).2 = .error ⟨fault, tried⟩) ∧
      ((store.write path content).1 = store ∨ ∃ count,
        store.system.breaksWriting (store.locate path).1 content.size = some (count, fault) ∧
          Received store path (content.extract 0 count) (store.write path content).1) := by
  rw [writeFault?] at h
  rw [write]
  rcases hlocate : store.locate path with ⟨place, entry⟩
  rw [hlocate] at h
  cases hentry : entry.fault? with
  | some found =>
    simp only [hentry, Option.some_or, Option.some.injEq] at h ⊢
    subst h
    exact ⟨⟨_, rfl⟩, .inl trivial⟩
  | none =>
    have hlook : (store.look path).fault? = none := by rw [look, hlocate]; exact hentry
    simp only [hentry, Option.none_or, writeAt] at h ⊢
    cases hbars : store.system.barsWriting place with
    | some found =>
      simp only [hbars, Option.some_or, Option.some.injEq] at h
      subst h
      exact ⟨⟨_, rfl⟩, .inl rfl⟩
    | none =>
      simp only [hbars, Option.none_or, Option.map_eq_some_iff] at h
      obtain ⟨⟨count, found⟩, hbreaks, rfl⟩ := h
      have hreceived := received_accept hlook (content.extract 0 count)
      rw [hlocate] at hreceived
      simp only [hbreaks]
      exact ⟨⟨none, rfl⟩, .inr ⟨count, rfl, hreceived⟩⟩

end Store

end MacroAsm
