/-
  VectorRaster.Document.Tree — documents: elements with attributes, and who stands in whom.

  Elements are numbered in the order they are added; the root is number 0. Nothing is
  removed or moved, so an element's parent never changes. An attribute that an element
  does not set is looked for on the elements around it, nearest first.
-/

namespace VectorRaster

structure ElementId where
  index : Nat
  deriving DecidableEq, Repr

structure Element where
  name : String
  /-- Names with their values, each name once. -/
  attributes : List (String × String)
  parent? : Option ElementId
  /-- In the order they were added. -/
  children : List ElementId
  deriving DecidableEq, Repr

structure Document where
  elements : Array Element
  deriving DecidableEq, Repr

namespace Element

def attribute? (e : Element) (name : String) : Option String := (e.attributes.find? (·.1 == name)).map (·.2)

/-- The list with `name` set: in its old place, or at the end. -/
def settle (name value : String) : List (String × String) → List (String × String)
  | [] => [(name, value)]
  | (n, v) :: rest => if n == name then (n, value) :: rest else (n, v) :: settle name value rest

def setAttribute (e : Element) (name value : String) : Element :=
  { e with attributes := settle name value e.attributes }

def addChild (e : Element) (child : ElementId) : Element := { e with children := e.children ++ [child] }

end Element

namespace Document

/-- A document that is only a root. -/
def ofRoot (name : String) : Document := ⟨#[⟨name, [], none, []⟩]⟩

def root : ElementId := ⟨0⟩

def element? (d : Document) (id : ElementId) : Option Element := d.elements[id.index]?

/-- Changes one element; none if there is no such element. -/
def modify? (d : Document) (id : ElementId) (f : Element → Element) : Option Document :=
  if id.index < d.elements.size then some ⟨d.elements.modify id.index f⟩ else none

/-- Adds an element as the last child of `parent`; none if there is no such parent.
    The new element is there already when the parent is looked up. -/
def addElement (d : Document) (parent : ElementId) (name : String) : Option (ElementId × Document) := do
  let id : ElementId := ⟨d.elements.size⟩
  let grown : Document := ⟨d.elements.push ⟨name, [], some parent, []⟩⟩
  return (id, ← grown.modify? parent (·.addChild id))

def setAttribute (d : Document) (id : ElementId) (name value : String) : Option Document :=
  d.modify? id (·.setAttribute name value)

def setAttributes (d : Document) (id : ElementId) : List (String × String) → Option Document
  | [] => some d
  | (name, value) :: rest => do (← d.setAttribute id name value).setAttributes id rest

def addElementWith (d : Document) (parent : ElementId) (name : String) (attributes : List (String × String)) :
    Option (ElementId × Document) := do
  let (id, grown) ← d.addElement parent name
  return (id, ← grown.setAttributes id attributes)

/-- The name of an element; empty if there is no such element. -/
def name (d : Document) (id : ElementId) : String := ((d.element? id).map (·.name)).getD ""

def parent? (d : Document) (id : ElementId) : Option ElementId := d.element? id >>= (·.parent?)

def children (d : Document) (id : ElementId) : List ElementId := ((d.element? id).map (·.children)).getD []

/-- The element and those around it, inside out, up to `steps` of them. -/
def ancestorsUpTo (d : Document) : Nat → ElementId → List ElementId
  | 0, _ => []
  | steps + 1, id =>
    if id.index < d.elements.size then
      id :: match d.parent? id with
        | some p => d.ancestorsUpTo steps p
        | none => []
    else []

/-- The element, its parent, its parent's parent and so on to the root. -/
def ancestors (d : Document) (id : ElementId) : List ElementId := d.ancestorsUpTo d.elements.size id

def attribute? (d : Document) (id : ElementId) (name : String) : Option String :=
  d.element? id >>= (·.attribute? name)

/-- The attribute on the element, or on the nearest element around it that sets it. -/
def inherited? (d : Document) (id : ElementId) (name : String) : Option String :=
  (d.ancestors id).findSome? (d.attribute? · name)

end Document

end VectorRaster
