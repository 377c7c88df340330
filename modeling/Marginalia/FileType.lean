import Marginalia.Path
/-!
The file types that are known by name, and the families of types that write comments alike. A type
that is not known is the absence of one: no constructor stands for it.
-/

namespace Marginalia

inductive Family where
  | cLike
  | python
  | markup
  | css
deriving DecidableEq, Repr

namespace Family

def all : List Family := [cLike, python, markup, css]

def title : Family → Text
  | cLike => "C-like".toList
  | python => "Python".toList
  | markup => "HTML/XML".toList
  | css => "CSS".toList

theorem mem_all (f : Family) : f ∈ all := by cases f <;> simp [all]

end Family

inductive FileType where
  | java
  | javaScript
  | c
  | cpp
  | python
  | html
  | xml
  | css
deriving DecidableEq, Repr

namespace FileType

/-- The known types, in the order in which a name is looked for. -/
def all : List FileType := [java, javaScript, c, cpp, python, html, xml, css]

/-- The name that a type has in a file's ending. -/
def token : FileType → Text
  | java => "java".toList
  | javaScript => "js".toList
  | c => "c".toList
  | cpp => "cpp".toList
  | python => "py".toList
  | html => "html".toList
  | xml => "xml".toList
  | css => "css".toList

/-- The name that a type has in prose. -/
def title : FileType → Text
  | java => "Java".toList
  | javaScript => "JavaScript".toList
  | c => "C".toList
  | cpp => "C++".toList
  | python => "Python".toList
  | html => "HTML".toList
  | xml => "XML".toList
  | css => "CSS".toList

def family : FileType → Family
  | java | javaScript | c | cpp => .cLike
  | python => .python
  | html | xml => .markup
  | css => .css

/-- The ending of a new file's name. -/
def ending (f : FileType) : Text := '.' :: f.token

/-- Equal up to the case of ASCII letters; no other letter is folded. -/
def sameLetters (s t : Text) : Bool := s.map Char.toLower == t.map Char.toLower

/-- Either of its names is a type's name. -/
def goesBy (f : FileType) (name : Text) : Bool :=
  sameLetters name f.token || sameLetters name f.title

/-- A type's name as it may be given: with blanks around it and dots in front of it. -/
def bareName (given : Text) : Text := (Text.trim given).dropWhile (· == '.')

/-- The type with a given name. -/
def ofToken? (given : Text) : Option FileType := all.find? (·.goesBy (bareName given))

/-- The type that a file's name tells. -/
def ofPath? (p : Path) : Option FileType := p.token?.bind ofToken?

/-- The token that is shown for a file, whether its type is known or not. -/
def shownToken (f : Option FileType) : Text := (f.map token).getD "unknown".toList

def shownTitle (f : Option FileType) : Text := (f.map title).getD "Unknown".toList

def shownFamily (f : Option FileType) : Text :=
  (f.map (·.family.title)).getD "hash (default)".toList

theorem mem_all (f : FileType) : f ∈ all := by cases f <;> simp [all]

theorem goesBy_of_ofToken? {given : Text} {f : FileType} (h : ofToken? given = some f) :
    f.goesBy (bareName given) = true := by
  simpa using List.find?_some h

theorem ofToken?_token (f : FileType) : ofToken? f.token = some f := by cases f <;> decide

theorem ofToken?_title (f : FileType) : ofToken? f.title = some f := by cases f <;> decide

theorem ofToken?_ending (f : FileType) : ofToken? f.ending = some f := by cases f <;> decide

end FileType

end Marginalia
