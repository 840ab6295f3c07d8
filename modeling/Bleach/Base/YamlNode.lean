import Mathlib.Tactic.Common

/-! Trees of YAML nodes and the way yaml-cpp reads them: a missing key is an undefined node, and
only its conversion fails. -/
namespace YamlNode

inductive Node where
  | undefined
  | null
  | scalar (text : String)
  | sequence (items : List Node)
  | map (pairs : List (Node × Node))

inductive NodeError where
  | parser (what : String)
  | badSubscript
  | badConversion
  | invalidNode
  deriving DecidableEq

/-- What a loop visits: an item of a sequence or a pair of a map. -/
inductive Visited where
  | item (node : Node)
  | pair (key value : Node)

namespace Visited

/-- The pair of an item, and the node of a pair, are invalid. -/
def first : Visited → Except NodeError Node
  | item _ => .error .invalidNode
  | pair key _ => .ok key

def second : Visited → Except NodeError Node
  | item _ => .error .invalidNode
  | pair _ value => .ok value

def self : Visited → Except NodeError Node
  | item node => .ok node
  | pair .. => .error .invalidNode

end Visited

namespace Node

def isDefined : Node → Bool
  | undefined => false
  | _ => true

def isNull : Node → Bool
  | null => true
  | _ => false

def isSequence : Node → Bool
  | sequence _ => true
  | _ => false

def isKey (key : String) : Node → Bool
  | scalar text => text = key
  | _ => false

/-- `operator[]` with a string: the first pair with the key. -/
def get (key : String) : Node → Except NodeError Node
  | map pairs => .ok (((pairs.find? fun p => p.1.isKey key).map Prod.snd).getD undefined)
  | scalar _ => .error .badSubscript
  | _ => .ok undefined

/-- A loop over a node without items is empty. -/
def visited : Node → List Visited
  | sequence items => items.map .item
  | map pairs => pairs.map fun (key, value) => .pair key value
  | _ => []

def size (node : Node) : Nat := node.visited.length

end Node

/-- How scalars are read, and what a null node is as a string, if it is one. -/
structure Conversions where
  nullString : Option String
  bool : String → Option Bool
  uint64 : String → Option Nat

namespace Conversions
variable (conv : Conversions)

/-- `as<std::string>` -/
def asString : Node → Except NodeError String
  | .scalar text => .ok text
  | .null => conv.nullString.elim (.error .badConversion) .ok
  | _ => .error .badConversion

/-- `as<bool>` -/
def asBool : Node → Except NodeError Bool
  | .scalar text => (conv.bool text).elim (.error .badConversion) .ok
  | _ => .error .badConversion

/-- `as<uint64_t>` -/
def asUInt64 : Node → Except NodeError Nat
  | .scalar text => (conv.uint64 text).elim (.error .badConversion) .ok
  | _ => .error .badConversion

end Conversions

namespace Node
variable {key other : String} {value : Node} {pairs : List (Node × Node)}

theorem get_later (apart : other ≠ key) :
    (map ((scalar other, value) :: pairs)).get key = (map pairs).get key := by
  simp [get, isKey, apart]

theorem get_empty : (map []).get key = .ok undefined := rfl

end Node

end YamlNode
