/-!
Names of prims and of properties. A prim name is one identifier; a property name is one or more
identifiers joined by colons.
-/

namespace SceneGraph

def opensIdentifier (letter : Char) : Bool := letter == '_' || letter.isAlpha

def continuesIdentifier (letter : Char) : Bool := letter == '_' || letter.isAlphanum

/-- Identifiers are ASCII letters, digits and underscores that do not start with a digit. -/
def isIdentifierText : List Char → Bool
  | [] => false
  | first :: rest => opensIdentifier first && rest.all continuesIdentifier

def isIdentifier (text : String) : Bool := isIdentifierText text.toList

def pieces (mark : Char) : List Char → List Char × List (List Char)
  | [] => ([], [])
  | letter :: rest =>
    let (first, others) := pieces mark rest
    if letter = mark then ([], first :: others) else (letter :: first, others)

def isPropertyName (text : String) : Bool :=
  let (first, others) := pieces ':' text.toList
  isIdentifierText first && others.all isIdentifierText

structure Name where
  text : String
  identifier : isIdentifier text = true
deriving DecidableEq

namespace Name

theorem text_injective {left right : Name} (same : left.text = right.text) : left = right := by
  cases left; cases right; cases same; rfl

instance : Ord Name := ⟨compareOn text⟩

instance : Std.TransOrd Name := inferInstanceAs (Std.TransCmp (compareOn text))

instance : Std.LawfulEqOrd Name where
  eq_of_compare {left right} equal :=
    have order : compare left.text right.text = .eq := equal
    text_injective (Std.LawfulEqOrd.eq_of_compare order)

end Name

structure PropertyName where
  text : String
  identifiers : isPropertyName text = true
deriving DecidableEq

namespace PropertyName

theorem text_injective {left right : PropertyName} (same : left.text = right.text) :
    left = right := by
  cases left; cases right; cases same; rfl

instance : Ord PropertyName := ⟨compareOn text⟩

instance : Std.TransOrd PropertyName := inferInstanceAs (Std.TransCmp (compareOn text))

instance : Std.LawfulEqOrd PropertyName where
  eq_of_compare {left right} equal :=
    have order : compare left.text right.text = .eq := equal
    text_injective (Std.LawfulEqOrd.eq_of_compare order)

end PropertyName

end SceneGraph
