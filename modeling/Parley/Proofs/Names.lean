import Parley.Batch.Config
import Parley.Proofs.Pieces

/-!
# Names of files in a directory

A file name is one step of a path, so the path of a directory joined with it
leads into that directory. A script and its artifact share their stem. Since
scripts have one extension, artifacts of different scripts have different
names, and the last letters alone tell scripts, artifacts and the stamp table
apart.
-/

namespace Parley

namespace Path

open Text

/-- Whether a raw text can be the name of an entry of a directory. -/
structure IsName (name : RawText) : Prop where
  ne_empty : name ≠ ""
  no_slash : slash ∉ name.bytes
  ne_here : name ≠ "."
  ne_above : name ≠ ".."

instance (name : RawText) : Decidable (IsName name) :=
  decidable_of_iff (name ≠ "" ∧ slash ∉ name.bytes ∧ name ≠ "." ∧ name ≠ "..")
    ⟨fun ⟨hempty, hslash, hhere, habove⟩ => ⟨hempty, hslash, hhere, habove⟩,
      fun h => ⟨h.ne_empty, h.no_slash, h.ne_here, h.ne_above⟩⟩

theorem isSlash_slash : isSlash slash = true := rfl

theorem bytes_eq_nil_iff {raw : RawText} : raw.bytes = [] ↔ raw = "" := by
  refine ⟨fun h => ?_, fun h => h ▸ rfl⟩
  cases raw
  exact congrArg RawText.mk h

theorem IsName.isSlash_eq_false {name : RawText} (h : IsName name) :
    ∀ byte ∈ name.bytes, isSlash byte = false := by
  intro byte hbyte
  rw [isSlash, beq_eq_false_iff_ne]
  rintro rfl
  exact h.no_slash hbyte

theorem IsName.bytes_ne_nil {name : RawText} (h : IsName name) : name.bytes ≠ [] := by
  intro hnil
  exact h.ne_empty (bytes_eq_nil_iff.mp hnil)

theorem IsName.runs_eq {name : RawText} (h : IsName name) :
    runs isSlash name.bytes = [name.bytes] :=
  runs_eq_singleton h.bytes_ne_nil h.isSlash_eq_false

theorem IsName.not_isAbsolute {name : RawText} (h : IsName name) :
    (⟨name⟩ : Path).isAbsolute = false := by
  rw [isAbsolute]
  cases hname : name.bytes with
  | nil => rfl
  | cons byte rest => exact h.isSlash_eq_false byte (by simp [hname])

theorem fault?_eq_none_iff {path : Path} :
    path.fault? = none ↔ 0 ∉ path.text.bytes ∧ path.text.bytes.length ≤ lengthLimit := by
  rw [← Nat.not_lt, fault?]
  by_cases hnul : 0 ∈ path.text.bytes
  · simp [hnul]
  · by_cases hlong : lengthLimit < path.text.bytes.length <;> simp [hnul, hlong]

theorem bytes_of_endsInSlash {base : Path} (h : base.endsInSlash = true) :
    ∃ front, base.text.bytes = front ++ [slash] := by
  rw [endsInSlash] at h
  cases hlast : base.text.bytes.getLast? with
  | none => simp [hlast] at h
  | some byte =>
      have hbyte : byte = slash := by simpa [hlast, isSlash] using h
      obtain ⟨front, hfront⟩ := List.getLast?_eq_some_iff.mp hlast
      exact ⟨front, by rw [hfront, hbyte]⟩

/-- The path of a directory in front of a name: all slashes but the one that
divides the two belong to the directory. -/
theorem text_join (base : Path) {name : RawText} (h : IsName name) :
    ∃ front, (base.join ⟨name⟩).text.bytes = front ++ name.bytes ∧
      runs isSlash front = runs isSlash base.text.bytes ∧
      front.head?.any isSlash = base.isAbsolute ∧
      (front = [] ∨ ∃ more, front = more ++ [slash]) := by
  rw [join, h.not_isAbsolute]
  simp only [Bool.false_eq_true, if_false]
  split
  next hbase =>
    refine ⟨base.text.bytes, rfl, rfl, rfl, ?_⟩
    rw [Bool.or_eq_true, decide_eq_true_eq] at hbase
    rcases hbase with hempty | hends
    · exact .inl (bytes_eq_nil_iff.mpr hempty)
    · exact .inr (bytes_of_endsInSlash hends)
  next hbase =>
    refine ⟨base.text.bytes ++ [slash], rfl, ?_, ?_, .inr ⟨_, rfl⟩⟩
    · rw [runs_append_separator isSlash_slash, runs_nil, List.append_nil]
    · rw [Bool.or_eq_true, decide_eq_true_eq, not_or] at hbase
      rw [isAbsolute, List.head?_append]
      cases htext : base.text.bytes with
      | nil => exact absurd (bytes_eq_nil_iff.mp htext) hbase.1
      | cons byte rest => rfl

theorem steps_join (base : Path) {name : RawText} (h : IsName name) :
    (base.join ⟨name⟩).steps = name :: base.steps := by
  obtain ⟨front, htext, hruns, -, hfront⟩ := base.text_join h
  have hjoin : runs isSlash (front ++ name.bytes) = runs isSlash front ++ [name.bytes] := by
    rcases hfront with rfl | ⟨more, rfl⟩
    · rw [List.nil_append, h.runs_eq, runs_nil, List.nil_append]
    · rw [List.append_assoc, List.singleton_append, runs_append_separator isSlash_slash, h.runs_eq,
        runs_append_separator isSlash_slash, runs_nil, List.append_nil]
  rw [steps, htext, hjoin, hruns, List.map_append, List.reverse_append, steps]
  rfl

theorem isAbsolute_join (base : Path) {name : RawText} (h : IsName name) :
    (base.join ⟨name⟩).isAbsolute = base.isAbsolute := by
  obtain ⟨front, htext, -, hhead, hfront⟩ := base.text_join h
  rw [isAbsolute, htext, ← hhead, List.head?_append]
  rcases hfront with rfl | ⟨more, rfl⟩
  · exact h.not_isAbsolute
  · cases more <;> rfl

theorem endsInSlash_join (base : Path) {name : RawText} (h : IsName name) :
    (base.join ⟨name⟩).endsInSlash = false := by
  obtain ⟨front, htext, -⟩ := base.text_join h
  rw [endsInSlash, htext, List.getLast?_append]
  cases hlast : name.bytes.getLast? with
  | none => exact absurd (List.getLast?_eq_none_iff.mp hlast) h.bytes_ne_nil
  | some byte => exact h.isSlash_eq_false byte (List.mem_of_getLast? hlast)

theorem fileName?_join (base : Path) {name : RawText} (h : IsName name) :
    (base.join ⟨name⟩).fileName? = some name := by
  rw [fileName?, components, steps_join base h, List.filter_cons_of_pos (by simpa using h.ne_here)]
  simp only [h.ne_above, if_false]

theorem join_injective (base : Path) {name other : RawText} (h : IsName name) (ho : IsName other)
    (heq : base.join ⟨name⟩ = base.join ⟨other⟩) : name = other := by
  have hsteps := steps_join base h
  rw [heq, steps_join base ho] at hsteps
  exact (List.cons.inj hsteps).1.symm

theorem splitName_eq_some {name extension : RawText} (h : (splitName name).2 = some extension) :
    name = (splitName name).1 ++ "." ++ extension ∧ (splitName name).1 ≠ "" := by
  unfold splitName at h ⊢
  split at h
  next => simp at h
  next byte rest hstem =>
    obtain rfl := Option.some.inj h
    refine ⟨congrArg RawText.mk ?_, fun hempty => ?_⟩
    · have hwhole := dropEndWhile_append_takeEndWhile (!isDot ·) name.bytes
      rcases dropEndWhile_cases (!isDot ·) name.bytes with hnil | ⟨front, last, hfront, hlast⟩
      · simp [hnil] at hstem
      · have hdot : last = dot := by simpa [isDot] using hlast
        rw [hfront, List.dropLast_concat] at hstem
        rw [hfront, hstem, hdot] at hwhole
        exact hwhole.symm
    · exact absurd (bytes_eq_nil_iff.mpr hempty) (List.cons_ne_nil _ _)

end Path

namespace Batch

open Parley.Path

/-- Whether a name is that of a script. -/
def isScriptName (name : RawText) : Prop := (splitName name).2 = some scriptExtension

instance (name : RawText) : Decidable (isScriptName name) := inferInstanceAs (Decidable (_ = _))

/-- The name of the artifact of a script. -/
def artifactName (name : RawText) : RawText := (splitName name).1 ++ "." ++ artifactExtension

theorem artifactName_injective {name other : RawText} (h : isScriptName name)
    (ho : isScriptName other) (heq : artifactName name = artifactName other) : name = other := by
  have hstem : (splitName name).1 = (splitName other).1 := by
    have hbytes := congrArg RawText.bytes heq
    simp only [artifactName, RawText.bytes_append, List.append_cancel_right_eq] at hbytes
    exact congrArg RawText.mk hbytes
  rw [(splitName_eq_some h).1, (splitName_eq_some ho).1, hstem]

theorem getLast?_of_isScriptName {name : RawText} (h : isScriptName name) :
    name.bytes.getLast? = some 0x64 := by
  rw [(splitName_eq_some h).1, RawText.bytes_append, List.getLast?_append]
  rfl

theorem getLast?_artifactName (name : RawText) :
    (artifactName name).bytes.getLast? = some 0x68 := by
  rw [artifactName, RawText.bytes_append, List.getLast?_append]
  rfl

theorem artifactName_ne {other : RawText} (h : other.bytes.getLast? ≠ some 0x68)
    (name : RawText) : artifactName name ≠ other := by
  rintro rfl
  exact h (getLast?_artifactName name)

theorem artifactName_ne_tableName (name : RawText) : artifactName name ≠ tableName :=
  artifactName_ne (by decide) name

theorem artifactName_ne_of_isScriptName {script : RawText} (h : isScriptName script)
    (name : RawText) : artifactName name ≠ script :=
  artifactName_ne (by rw [getLast?_of_isScriptName h]; decide) name

theorem tableName_ne_of_isScriptName {script : RawText} (h : isScriptName script) :
    tableName ≠ script := by
  intro heq
  have hlast := getLast?_of_isScriptName h
  rw [← heq] at hlast
  exact absurd hlast (by decide)

theorem isName_tableName : IsName tableName where
  ne_empty := by decide
  no_slash := by decide
  ne_here := by decide
  ne_above := by decide

theorem isName_artifactName {name : RawText} (h : IsName name) (hscript : isScriptName name) :
    IsName (artifactName name) where
  ne_empty := artifactName_ne (by decide) name
  no_slash := by
    intro hmem
    have hname := (splitName_eq_some hscript).1
    simp only [artifactName, RawText.bytes_append, List.mem_append] at hmem
    rcases hmem with (hstem | hdot) | hextension
    · apply h.no_slash
      rw [hname, RawText.bytes_append, RawText.bytes_append, List.append_assoc]
      exact List.mem_append_left _ hstem
    · exact absurd hdot (by decide)
    · exact absurd hextension (by decide)
  ne_here := artifactName_ne (by decide) name
  ne_above := artifactName_ne (by decide) name

theorem extension?_join (base : Path) {name : RawText} (h : IsName name) :
    (base.join ⟨name⟩).extension? = some scriptExtension ↔ isScriptName name := by
  rw [extension?, fileName?_join base h]
  rfl

theorem stem?_join (base : Path) {name : RawText} (h : IsName name) :
    (base.join ⟨name⟩).stem? = some (splitName name).1 := by
  rw [stem?, fileName?_join base h]
  rfl

/-- The artifact of a script in the input directory is in the output directory. -/
theorem Config.artifactPath_join (config : Config) {name : RawText} (h : IsName name) :
    config.artifactPath (config.inputDir.join ⟨name⟩) =
      config.outputDir.join ⟨artifactName name⟩ := by
  rw [artifactPath, stem?_join _ h]
  rfl

end Batch

end Parley
