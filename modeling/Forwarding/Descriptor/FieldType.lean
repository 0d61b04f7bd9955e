import Forwarding.Descriptor.BaseType

/-!
# Field types

A field type is an element, either a base type or a class, under some number
of array dimensions.  It has two written forms: the descriptor, with one
bracket per dimension in front and slashes inside class names, and the source
name, with `[]` per dimension behind and dots inside class names.
-/

namespace Forwarding

inductive ElementType
  | base (type : BaseType)
  | object (className : String)
  deriving DecidableEq, Repr

structure FieldType where
  dimensions : Nat
  element : ElementType
  deriving DecidableEq, Repr

/-- What a method gives back; `none` stands for `void`. -/
abbrev ReturnType := Option FieldType

structure MethodDescriptor where
  parameters : List FieldType
  result : ReturnType
  deriving DecidableEq, Repr

def voidName : String := "void"

/-! ## Source names -/

def ElementType.typeName : ElementType → String
  | .base type => type.name
  | .object className => className

/-- The suffix `[]`, once per dimension. -/
def arraySuffix (dimensions : Nat) : String :=
  String.ofList (List.replicate dimensions ['[', ']']).flatten

def FieldType.typeName (t : FieldType) : String :=
  t.element.typeName ++ arraySuffix t.dimensions

def ReturnType.typeName : ReturnType → String
  | none => voidName
  | some t => t.typeName

namespace TypeName

/-- Counts and removes the `[]` suffixes of a name that is given backwards. -/
def stripBackwards : List Char → Nat × List Char
  | ']' :: '[' :: rest =>
      let (dimensions, element) := stripBackwards rest
      (dimensions + 1, element)
  | element => (0, element)

/-- Splits a name into the number of its `[]` suffixes and what precedes
them. -/
def split (name : String) : Nat × String :=
  let (dimensions, element) := stripBackwards name.toList.reverse
  (dimensions, String.ofList element.reverse)

/-- Removes the suffixes likewise and counts them on in a word of 32 bits with a
sign.  A word that is full wraps around. -/
def stripCounting : Int32 → List Char → Int32 × List Char
  | count, ']' :: '[' :: rest => stripCounting (count + 1) rest
  | count, element => (count, element)

/-- Whether every segment between dots holds a character; `fresh` says that
the current segment has none so far. -/
def segmentsFilled : (fresh : Bool) → List Char → Bool
  | fresh, [] => !fresh
  | fresh, c :: rest =>
      if c = '.' then !fresh && segmentsFilled true rest
      else segmentsFilled false rest

/-- Whether source code may use the text as the name of a class. -/
def namesClass (name : String) : Bool :=
  name != voidName && segmentsFilled true name.toList &&
    name.toList.all fun c => c ∉ ['/', ';', '[', ']']

def element? (name : String) : Option ElementType :=
  match BaseType.ofName? name with
  | some base => some (.base base)
  | none => if namesClass name then some (.object name) else none

end TypeName

/-- The type that a source name spells, however many suffixes it has. -/
def FieldType.spelled? (name : String) : Option FieldType :=
  let (dimensions, element) := TypeName.split name
  (TypeName.element? element).map (FieldType.mk dimensions)

/-- Reads a source name.  There is no limit on dimensions here but the word that
counts them, and a count below zero makes no array.  A build that checks for
overflow stops where this one wraps around. -/
def FieldType.ofTypeName? (name : String) : Option FieldType :=
  let (count, element) := TypeName.stripCounting 0 name.toList.reverse
  (TypeName.element? (String.ofList element.reverse)).map
    (FieldType.mk count.toNatClampNeg)

/-! ## Descriptors -/

/-- A class name as class files write it, with slashes between segments. -/
def slashed (className : String) : String :=
  className.map fun c => if c = '.' then '/' else c

/-- A class name as source code writes it, with dots between segments. -/
def dotted (className : String) : String :=
  className.map fun c => if c = '/' then '.' else c

def ElementType.encode : ElementType → List Char
  | .base type => [type.code]
  | .object className => 'L' :: (slashed className).toList ++ [';']

def FieldType.encodeChars (t : FieldType) : List Char :=
  List.replicate t.dimensions '[' ++ t.element.encode

def FieldType.encode (t : FieldType) : String :=
  String.ofList t.encodeChars

def ReturnType.encodeChars : ReturnType → List Char
  | none => ['V']
  | some t => t.encodeChars

def MethodDescriptor.encodeChars (m : MethodDescriptor) : List Char :=
  '(' :: m.parameters.flatMap FieldType.encodeChars ++
    ')' :: ReturnType.encodeChars m.result

def MethodDescriptor.encode (m : MethodDescriptor) : String :=
  String.ofList m.encodeChars

def MethodDescriptor.parameterTypeNames (m : MethodDescriptor) : List String :=
  m.parameters.map FieldType.typeName

end Forwarding
