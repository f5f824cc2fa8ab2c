import Std.Data.TreeMap
import LineCalc.Number.Basic

/-! Stores: the variables that have a value, in order of their names. -/

namespace LineCalc

structure Store where
  bindings : Std.TreeMap String Number := ∅

namespace Store

def empty : Store := {}

def get? (s : Store) (name : String) : Option Number := s.bindings[name]?

def set (s : Store) (name : String) (value : Number) : Store := ⟨s.bindings.insert name value⟩

def contains (s : Store) (name : String) : Bool := s.bindings.contains name

def size (s : Store) : Nat := s.bindings.size

def isEmpty (s : Store) : Bool := s.bindings.isEmpty

/-- The variables with their values, in code point order of the names. -/
def toList (s : Store) : List (String × Number) := s.bindings.toList

theorem get?_set (s : Store) (name other : String) (value : Number) :
    (s.set name value).get? other = if name = other then some value else s.get? other := by
  simp [get?, set, Std.TreeMap.getElem?_insert]

theorem contains_eq_isSome_get? (s : Store) (name : String) :
    s.contains name = (s.get? name).isSome := by
  simp [contains, get?, Std.TreeMap.isSome_getElem?_eq_contains]

theorem size_set (s : Store) (name : String) (value : Number) :
    (s.set name value).size = if s.contains name then s.size else s.size + 1 := by
  simp [size, set, contains, Std.TreeMap.size_insert]

end Store
end LineCalc
