import TreeQuery.Text.Blank
import TreeQuery.Text.Quoted
/-!
# Elements

A tag and named attributes. The attributes stand in the order in which they were first given.
-/

namespace TreeQuery

structure Element where
  tag : String
  attributes : List (String × String)
  deriving DecidableEq, Repr

/-- Something that an element is given: its id, one more class, or the value of an attribute. -/
inductive Trait where
  | id (value : String)
  | className (value : String)
  | attr (name value : String)
  deriving DecidableEq, Repr

namespace Element

/-- Sets a value in its old place, or at the end if the name is new. -/
def setValue (name value : String) : List (String × String) → List (String × String)
  | [] => [(name, value)]
  | (n, v) :: rest =>
    if n = name then (n, value) :: rest else (n, v) :: setValue name value rest

def attribute? (e : Element) (name : String) : Option String :=
  e.attributes.lookup name

def setAttribute (e : Element) (name value : String) : Element :=
  { e with attributes := setValue name value e.attributes }

/-- Puts a class at the end of the `class` attribute, behind a space unless it is the first. -/
def addClass (e : Element) (value : String) : Element :=
  let old := (e.attribute? "class").getD ""
  e.setAttribute "class" (if old.isEmpty then value else old ++ " " ++ value)

def add (e : Element) : Trait → Element
  | .id value => e.setAttribute "id" value
  | .className value => e.addClass value
  | .attr name value => e.setAttribute name value

def ofTraits (tag : String) (traits : List Trait) : Element :=
  traits.foldl add ⟨tag, []⟩

def id? (e : Element) : Option String :=
  e.attribute? "id"

def classes (e : Element) : List (List Char) :=
  match e.attribute? "class" with
  | some value => Text.words value.toList
  | none => []

def text (e : Element) : String :=
  e.tag ++ String.join (e.attributes.map fun (name, value) =>
    " " ++ name ++ "=" ++ Text.quoted value)

end Element

end TreeQuery
