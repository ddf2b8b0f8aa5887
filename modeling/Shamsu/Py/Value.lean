import Shamsu.Py.Text

/-!
# JSON values

What `json.loads` returns, which is what a model's tool call and a change
request arrive as. A dictionary is its items in order. A float is kept as its
`str()` and whether it is non-zero, which is all the program looks at.
-/

namespace Shamsu.Py

inductive Value where
  | none
  | bool (b : Bool)
  | int (n : Int)
  | float (text : Text) (nonzero : Bool)
  | str (t : Text)
  | list (items : List Value)
  | dict (items : List (Text × Value))

namespace Value

/-- `type(value).__name__`. -/
def typeName : Value → String
  | none => "NoneType"
  | bool _ => "bool"
  | int _ => "int"
  | float .. => "float"
  | str _ => "str"
  | list _ => "list"
  | dict _ => "dict"

/-- `bool(value)`. -/
def truthy : Value → Bool
  | none => false
  | bool b => b
  | int n => n != 0
  | float _ nonzero => nonzero
  | str t => t != []
  | list items => !items.isEmpty
  | dict items => !items.isEmpty

end Value

abbrev Dict := List (Text × Value)

/-- `d.get(key)`. -/
def dictGet (d : Dict) (key : String) : Option Value := d.lookup key.toList

end Shamsu.Py
