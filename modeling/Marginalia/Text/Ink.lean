import Marginalia.Text.Blank
/-!
Colours on a terminal: a text between the codes that turn a style on and off.
-/

namespace Marginalia

inductive Style where
  | alarm
  | heading
  | done
  | banner
  | figure
deriving DecidableEq, Repr

/-- Whether texts are coloured. -/
inductive Ink where
  | plain
  | coloured
deriving DecidableEq, Repr

namespace Ink

def code : Style → Text
  | .alarm => "1;31".toList
  | .heading => "1;34".toList
  | .done => "1;32".toList
  | .banner => "1;96".toList
  | .figure => "93".toList

def escape (code : Text) : Text := '\x1b' :: '[' :: code ++ ['m']

def paint (ink : Ink) (style : Style) (t : Text) : Text :=
  match ink with
  | plain => t
  | coloured => escape (code style) ++ t ++ escape ['0']

end Ink

end Marginalia
