import Parley.Proofs.Planning

/-!
# The stamp table between batches

A batch stores its stamps in one file and the next batch reads them there.
Storing touches no other file. What is read back is what was stored, as far as
its timestamps can be read back, provided that no name breaks the format of
the file.
-/

namespace Parley

open FileTree Parley.Path

/-- Whether a name can be told apart in the file of a stamp table. -/
def StampTable.isStorable (name : String) : Prop := isSeparable name ∧ ¬ isMarked name

instance (name : String) : Decidable (StampTable.isStorable name) :=
  inferInstanceAs (Decidable (_ ∧ _))

/-- Whether the name of a file is a text that can be told apart in the file of a
stamp table. -/
def StampTable.isStorableName (name : RawText) : Prop := name.isText ∧ isStorable name.shown

instance (name : RawText) : Decidable (StampTable.isStorableName name) :=
  inferInstanceAs (Decidable (_ ∧ _))

theorem StampTable.eq_empty_of_bytes {table : StampTable} (h : table.bytes = []) :
    table = .empty := by
  obtain ⟨stamps, hincreasing⟩ := table
  have hnil : stamps = [] := by
    cases stamps with
    | nil => rfl
    | cons stamp rest => simp [bytes, recordBytes] at h
  subst hnil
  rfl

namespace Batch

open StampTable

-- A path that is joined is known by its lemmas. Its text is not computed.
attribute [local irreducible] Path.join

variable {config : Config} {tree : FileTree} {directory : Location}

/-! ## Reading -/

/-- The stamp table that a directory stores. -/
def storedTable (tree : FileTree) (directory : Location) : StampTable :=
  match tree.lookup (tableName :: directory) with
  | some (.file contents _) => .ofBytes contents
  | _ => .empty

theorem storedTable_congr {later : FileTree}
    (h : later.lookup (tableName :: directory) = tree.lookup (tableName :: directory)) :
    storedTable later directory = storedTable tree directory := by
  unfold storedTable
  rw [h]

theorem storedTable_of_grows {later : FileTree} (h : Grows tree later) (directory : Location) :
    storedTable later directory = storedTable tree directory := by
  unfold storedTable
  rcases h.lookup (tableName :: directory) with hkept | ⟨hnone, hmade⟩
  · rw [hkept]
  · rw [hnone, hmade]

theorem previous_eq (htable : tree.leadsTo config.tableDir directory) :
    (previous config tree).1 =
      if usable config.tableDir tableName then storedTable tree directory else .empty := by
  unfold previous loadTable FileTree.read stat Config.tablePath storedTable
  by_cases husable : usable config.tableDir tableName
  · rw [find_join htable isName_tableName husable, if_pos husable]
    cases tree.lookup (tableName :: directory) with
    | none => rfl
    | some entry => cases entry <;> rfl
  · rw [find_join_of_not_usable htable isName_tableName husable, if_neg husable]
    rfl

/-- What is known of a name was stored in the directory of the table. -/
theorem get?_previous {name : String} {seen : Instant}
    (h : (previous config tree).1.get? name = some seen) :
    (storedTable tree (tree.destination config.tableDir)).get? name = some seen := by
  have hfind : ∃ found, tree.find config.tablePath = .ok found := by
    unfold previous loadTable FileTree.read stat at h
    cases hfind : tree.find config.tablePath with
    | error fault => simp [hfind, Except.map] at h
    | ok found => exact ⟨found, rfl⟩
  obtain ⟨found, hfind⟩ := hfind
  rw [previous_eq (leadsTo_of_find_join isName_tableName hfind)] at h
  split at h
  next => exact h
  next => simp at h

/-! ## Storing -/

section

variable {outcome : Outcome}

/-- A table is not stored, stored over nothing or over a file, or it is empty
and a device takes it. -/
theorem persist_cases (htable : tree.leadsTo outcome.config.tableDir directory) :
    ((∃ fault, (outcome.persist tree).value = .error fault) ∧ (outcome.persist tree).tree = tree) ∨
      ((outcome.persist tree).value = .ok () ∧ usable outcome.config.tableDir tableName ∧
        ((outcome.snapshot = .empty ∧ tree.lookup (tableName :: directory) = some .fullDevice ∧
            (outcome.persist tree).tree = tree) ∨
          (obstacle (tree.lookup (tableName :: directory)) = none ∧
            (outcome.persist tree).tree = tree.set (tableName :: directory)
              (.file outcome.snapshot.bytes tree.clock)))) := by
  unfold Outcome.persist saveTable Config.tablePath
  dsimp only
  cases hwrite : tree.write (outcome.config.tableDir.join ⟨tableName⟩) outcome.snapshot.bytes with
  | error fault => exact .inl ⟨⟨_, rfl⟩, rfl⟩
  | ok later =>
      obtain ⟨husable, hcases⟩ := write_join_eq_ok htable isName_tableName hwrite
      refine .inr ⟨rfl, husable, ?_⟩
      rcases hcases with ⟨hdevice, hbytes, rfl⟩ | ⟨hfree, rfl⟩
      · exact .inl ⟨eq_empty_of_bytes hbytes, hdevice, rfl⟩
      · exact .inr ⟨hfree, rfl⟩

/-- A tree in which nothing but the stamp table of a directory has changed. -/
structure Stored (directory : Location) (tree later : FileTree) : Prop where
  wellFormed : later.WellFormed
  home : later.home = tree.home
  clock : later.clock = tree.clock
  keeps : ∀ place, tree.lookup place = some .directory → later.lookup place = some .directory
  others : ∀ location, location ≠ tableName :: directory →
    later.lookup location = tree.lookup location

namespace Stored

theorem refl (hwf : tree.WellFormed) : Stored directory tree tree :=
  ⟨hwf, rfl, rfl, fun _ => id, fun _ _ => rfl⟩

theorem sited {later : FileTree} {input output : Location} (h : Stored directory tree later)
    (hsited : Sited config tree input output) : Sited config later input output :=
  hsited.of_keeps h.wellFormed h.home h.keeps

theorem script {later : FileTree} (h : Stored directory tree later) {name : RawText}
    (hscript : isScriptName name) (above : Location) :
    later.lookup (name :: above) = tree.lookup (name :: above) := by
  apply h.others
  intro heq
  exact tableName_ne_of_isScriptName hscript (List.cons.inj heq).1.symm

theorem artifact {later : FileTree} (h : Stored directory tree later) (name : RawText)
    (above : Location) :
    later.lookup (artifactName name :: above) = tree.lookup (artifactName name :: above) := by
  apply h.others
  intro heq
  exact artifactName_ne_tableName name (List.cons.inj heq).1

end Stored

/-- Storing a table touches its own file only. -/
theorem stored_persist (hwf : tree.WellFormed)
    (htable : tree.leadsTo outcome.config.tableDir directory) :
    Stored directory tree (outcome.persist tree).tree := by
  rcases persist_cases htable with ⟨-, hsame⟩ | ⟨-, -, ⟨-, -, hsame⟩ | ⟨hfree, hset⟩⟩
  · rw [hsame]
    exact Stored.refl hwf
  · rw [hsame]
    exact Stored.refl hwf
  · rw [hset]
    have hover : tree.lookup (tableName :: directory) = some .directory →
        Entry.file outcome.snapshot.bytes tree.clock = .directory := by
      intro hdirectory
      rw [hdirectory] at hfree
      contradiction
    exact
      { wellFormed := hwf.set isName_tableName (hwf.lookup_of_leadsTo htable) hover
        home := rfl
        clock := rfl
        keeps := fun _ => lookup_set_directory hover
        others := fun _ hlocation => lookup_set_of_ne _ _ hlocation.symm }

/-- What was stored is read from the bytes that were written. -/
theorem storedTable_persist (htable : tree.leadsTo outcome.config.tableDir directory)
    (hvalue : (outcome.persist tree).value = .ok ()) :
    storedTable (outcome.persist tree).tree directory = .ofBytes outcome.snapshot.bytes := by
  rcases persist_cases htable with
    ⟨⟨fault, hfault⟩, -⟩ | ⟨-, -, ⟨hempty, hdevice, hsame⟩ | ⟨-, hset⟩⟩
  · rw [hfault] at hvalue
    contradiction
  · rw [hsame, storedTable, hdevice, hempty]
    rfl
  · rw [hset, storedTable, lookup_set_self]

/-- A table that was stored is read back, stamp by stamp. -/
theorem get?_storedTable_persist (htable : tree.leadsTo outcome.config.tableDir directory)
    (hvalue : (outcome.persist tree).value = .ok ())
    (hnames : ∀ name seen, outcome.snapshot.get? name = some seen → isStorable name)
    (name : String) :
    (storedTable (outcome.persist tree).tree directory).get? name =
      (outcome.snapshot.get? name).bind fun seen => Timestamp.read? (Timestamp.text seen) := by
  have hstorable : ∀ stamp ∈ outcome.snapshot.stamps, isStorable stamp.1 :=
    fun stamp hstamp => hnames stamp.1 stamp.2 (get?_of_mem_stamps hstamp)
  rw [storedTable_persist htable hvalue]
  refine get?_ofBytes_bytes (fun stamp hstamp => (hstorable stamp hstamp).1) ?_ name
  intro stamp hstamp
  exact (hstorable stamp (List.mem_of_mem_head? hstamp)).2

end

end Batch

end Parley
