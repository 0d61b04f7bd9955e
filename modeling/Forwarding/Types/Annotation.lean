/-!
# Annotations

Annotations of types and methods: a kind and named elements, in the order in
which they were given.
-/

namespace Forwarding

inductive AnnotationValue
  | string (text : String)
  | int (value : Int32)
  | long (value : Int64)
  | bool (value : Bool)
  | classRef (name : String)
  | enum (typeName constant : String)
  | array (values : List AnnotationValue)

structure Annotation where
  kind : String
  elements : List (String × AnnotationValue)

namespace Annotation

def element? (a : Annotation) (name : String) : Option AnnotationValue :=
  a.elements.lookup name

end Annotation

def annotated? (kind : String) (annotations : List Annotation) : Option Annotation :=
  annotations.find? (·.kind == kind)

end Forwarding
