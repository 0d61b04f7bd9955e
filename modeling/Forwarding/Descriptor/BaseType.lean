/-!
# Base types

The eight primitive types of the Java virtual machine.  Each has a letter in
descriptors, a keyword in source code and a class that boxes its values.
-/

namespace Forwarding

inductive BaseType
  | byte
  | char
  | double
  | float
  | int
  | long
  | short
  | boolean
  deriving DecidableEq, Repr

namespace BaseType

def all : List BaseType :=
  [.byte, .char, .double, .float, .int, .long, .short, .boolean]

/-- The letter that stands for the type in a descriptor. -/
def code : BaseType → Char
  | .byte => 'B'
  | .char => 'C'
  | .double => 'D'
  | .float => 'F'
  | .int => 'I'
  | .long => 'J'
  | .short => 'S'
  | .boolean => 'Z'

/-- The keyword that names the type in source code. -/
def name : BaseType → String
  | .byte => "byte"
  | .char => "char"
  | .double => "double"
  | .float => "float"
  | .int => "int"
  | .long => "long"
  | .short => "short"
  | .boolean => "boolean"

def boxedName : BaseType → String
  | .byte => "java.lang.Byte"
  | .char => "java.lang.Character"
  | .double => "java.lang.Double"
  | .float => "java.lang.Float"
  | .int => "java.lang.Integer"
  | .long => "java.lang.Long"
  | .short => "java.lang.Short"
  | .boolean => "java.lang.Boolean"

def ofCode? (letter : Char) : Option BaseType :=
  all.find? (·.code == letter)

def ofName? (keyword : String) : Option BaseType :=
  all.find? (·.name == keyword)

theorem mem_all (b : BaseType) : b ∈ all := by
  cases b <;> decide

@[simp] theorem ofCode?_code (b : BaseType) : ofCode? b.code = some b := by
  cases b <;> decide

theorem code_of_ofCode? {letter : Char} {b : BaseType}
    (h : ofCode? letter = some b) : b.code = letter := by
  simpa using List.find?_some h

@[simp] theorem ofName?_name (b : BaseType) : ofName? b.name = some b := by
  cases b <;> decide

theorem name_of_ofName? {keyword : String} {b : BaseType}
    (h : ofName? keyword = some b) : b.name = keyword := by
  simpa using List.find?_some h

end BaseType

end Forwarding
