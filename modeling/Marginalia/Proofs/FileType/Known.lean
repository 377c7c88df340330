import Marginalia.Command
import Marginalia.Proofs.FileType.Names
import Marginalia.Proofs.Path.Ending
import Marginalia.Proofs.SourceText.Splicing
/-!
Which types are known. A type's name is asked for in many places, by those that need a known type
and those that do without, and all of them know the same names.
-/

namespace Marginalia

namespace FileType

/-- A text that gives the name of a type. -/
def IsKnown (given : Text) : Prop := ∃ f name, Gives given name ∧ goesBy f name = true

theorem isKnown_iff {given : Text} : IsKnown given ↔ ∃ f, ofToken? given = some f := by
  simp only [IsKnown, ofToken?_eq_some_iff]

theorem not_isKnown_iff {given : Text} : ¬ IsKnown given ↔ ofToken? given = none := by
  rw [isKnown_iff, Option.eq_none_iff_forall_ne_some, not_exists]

theorem require_eq_ok_iff {given : Text} {f : FileType} :
    require given = .ok f ↔ ofToken? given = some f := by
  unfold require
  cases ofToken? given <;> simp

theorem require_of_not_isKnown {given : Text} (h : ¬ IsKnown given) :
    require given = .error (.unsupportedFileType given) := by
  rw [require, not_isKnown_iff.mp h]

end FileType

namespace Comment

theorem format_of_not_isKnown {given : Text} (h : ¬ FileType.IsKnown given) (kind : CommentKind)
    (note : Text) : format given kind note = .error (.unsupportedFileType given) := by
  rw [format, FileType.require_of_not_isKnown h]
  rfl

/-- A comment depends on the family alone. -/
theorem format_eq_ok_iff {given : Text} {kind : CommentKind} {note comment : Text} :
    format given kind note = .ok comment ↔
      ∃ family, (FileType.ofToken? given).map (·.family) = some family ∧
        comment = ofFamily family kind note := by
  cases hf : FileType.ofToken? given with
  | none =>
    rw [format_of_not_isKnown (FileType.not_isKnown_iff.mpr hf)]
    simp
  | some f =>
    rw [SourceText.format_of_ofToken? hf]
    simp [eq_comm]

end Comment

namespace CommentRule

theorem ofFamily_ne_hash (family : Family) : ofFamily family ≠ hash := by
  cases family <;> decide

theorem ofToken_ne_hash_iff {given : Text} : ofToken given ≠ hash ↔ FileType.IsKnown given := by
  rw [FileType.isKnown_iff, ofToken, ofType]
  cases FileType.ofToken? given with
  | none => simp
  | some f => simp [ofFamily_ne_hash]

theorem ofToken_congr {given other : Text}
    (h : (FileType.ofToken? given).map (·.family) = (FileType.ofToken? other).map (·.family)) :
    ofToken given = ofToken other := by
  have hrule : ∀ t, ofToken t =
      (((FileType.ofToken? t).map (·.family)).map ofFamily).getD hash := by
    intro t
    rw [ofToken, ofType, Option.map_map]
    rfl
  rw [hrule, hrule, h]

end CommentRule

/-- The ending of a new file is that of its type, whatever dots and slashes are in its name. -/
theorem Command.token?_newFile (directory : Path) (name : Text) (f : FileType) :
    (newFile directory name f).token? = some f.token := by
  have hfree : ∀ f ∈ FileType.all, f.token ≠ [] ∧ '.' ∉ f.token ∧ '/' ∉ f.token := by decide
  obtain ⟨hne, hdot, hslash⟩ := hfree f (FileType.mem_all f)
  exact Path.token?_join hne hdot hslash directory (Text.trim name)

/-- A type's name is known to all who ask for one, or to none of them. It is known if it is one of
the two names of a type, in any case, behind dots and between blanks; where a type has to be known,
any other name is refused as it was given. Comments are written, and told from code, by the family
of the type alone. The type of a new file is read off its path, whatever the file is called. -/
theorem FileType.known_alike :
    (∀ t,
      ((∃ f, FileType.require t = .ok f) ↔ IsKnown t) ∧
      ((∀ kind note, ∃ comment, Comment.format t kind note = .ok comment) ↔ IsKnown t) ∧
      (CommentRule.ofToken t ≠ CommentRule.hash ↔ IsKnown t) ∧
      ((∀ lines, (Report.ofToken t lines).fileType ≠ none) ↔ IsKnown t) ∧
      ((∃ e, (ofToken? t).map ending = some e) ↔ IsKnown t)) ∧
    (∀ t, ¬ IsKnown t →
      FileType.require t = .error (.unsupportedFileType t) ∧
      ∀ kind note, Comment.format t kind note = .error (.unsupportedFileType t)) ∧
    (∀ t u, (ofToken? t).map (·.family) = (ofToken? u).map (·.family) →
      (∀ kind note comment,
        Comment.format t kind note = .ok comment ↔ Comment.format u kind note = .ok comment) ∧
      ∀ line, (CommentRule.ofToken t).classify line = (CommentRule.ofToken u).classify line) ∧
    ∀ directory name f,
      let file := Command.newFile directory name f
      ofPath? file = some f ∧ ofToken? (Command.typeName file none) = some f := by
  refine ⟨?_, ?_, ?_, ?_⟩
  · intro t
    refine ⟨?_, ?_, CommentRule.ofToken_ne_hash_iff, ?_, ?_⟩
    · simp only [require_eq_ok_iff, isKnown_iff]
    · constructor
      · intro h
        by_contra hunknown
        obtain ⟨comment, hcomment⟩ := h .todo []
        rw [Comment.format_of_not_isKnown hunknown] at hcomment
        contradiction
      · intro h kind note
        obtain ⟨f, hf⟩ := isKnown_iff.mp h
        exact ⟨_, SourceText.format_of_ofToken? hf kind note⟩
    · constructor
      · intro h
        by_contra hunknown
        exact h [] (not_isKnown_iff.mp hunknown)
      · intro h lines hnone
        exact not_isKnown_iff.mpr hnone h
    · rw [isKnown_iff]
      simp
  · intro t h
    exact ⟨require_of_not_isKnown h, Comment.format_of_not_isKnown h⟩
  · intro t u h
    refine ⟨?_, ?_⟩
    · intro kind note comment
      rw [Comment.format_eq_ok_iff, Comment.format_eq_ok_iff, h]
    · intro line
      rw [CommentRule.ofToken_congr h]
  · intro directory name f file
    have htoken : file.token? = some f.token := Command.token?_newFile directory name f
    constructor
    · rw [ofPath?, htoken]
      exact ofToken?_token f
    · rw [Command.typeName, htoken]
      exact ofToken?_token f

/-- A type that is not known, two names of one family, and a name with dots and a slash in it. -/
theorem FileType.known_alike_markup :
    let file := Command.newFile (.ofText "a.py".toList) " .x/..java ".toList .html
    ¬ IsKnown "rs".toList ∧
      FileType.require "rs".toList = .error (.unsupportedFileType "rs".toList) ∧
      (ofToken? " ..HTML\n".toList).map (·.family) = (ofToken? "Xml".toList).map (·.family) ∧
      (∀ note comment, Comment.format " ..HTML\n".toList .todo note = .ok comment ↔
        Comment.format "Xml".toList .todo note = .ok comment) ∧
      (∃ comment, Comment.format "Xml".toList .todo [] = .ok comment) ∧
      file.bytes = Utf8.encode "a.py/.x/..java.html".toList ∧ ofPath? file = some .html := by
  intro file
  have hunknown : ¬ IsKnown "rs".toList := not_isKnown_iff.mpr (by decide)
  have hfamily : (ofToken? " ..HTML\n".toList).map (·.family) =
      (ofToken? "Xml".toList).map (·.family) := by decide
  have hknown : IsKnown "Xml".toList := isKnown_iff.mpr ⟨.xml, by decide⟩
  obtain ⟨hall, hrefused, hsame, hfiles⟩ := FileType.known_alike
  obtain ⟨_, hformat, _⟩ := hall "Xml".toList
  exact ⟨hunknown, (hrefused _ hunknown).1, hfamily, (hsame _ _ hfamily).1 .todo,
    hformat.mpr hknown .todo [], by decide, (hfiles _ _ .html).1⟩

end Marginalia
