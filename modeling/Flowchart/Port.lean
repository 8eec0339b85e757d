/-! Ports: the places where the nodes of a flowchart are connected. -/
namespace Flowchart

/-- What passes through a port: control, or a kind of value. -/
inductive DataType
  | flow
  | any
  | boolean
  | number
  | string
  | json
deriving DecidableEq, Repr, Inhabited

namespace DataType

/-- Control connects only to control; a value port takes its own type, and `any` takes every value. -/
def compatible (a b : DataType) : Bool :=
  if a = flow ∨ b = flow then a = b
  else if a = any ∨ b = any then true
  else a = b

def name : DataType → String
  | flow => "flow"
  | any => "any"
  | boolean => "boolean"
  | number => "number"
  | string => "string"
  | json => "json"

def title : DataType → String
  | flow => "Flow"
  | any => "Any"
  | boolean => "Boolean"
  | number => "Number"
  | string => "String"
  | json => "Json"

def choices : List (String × DataType) :=
  [flow, any, boolean, number, string, json].map fun t => (t.name, t)

end DataType

inductive Direction
  | input
  | output
deriving DecidableEq, Repr, Inhabited

namespace Direction

def name : Direction → String
  | input => "input"
  | output => "output"

def choices : List (String × Direction) := [input, output].map fun d => (d.name, d)

end Direction

/-- How many connections a port may carry: one, or any number. -/
inductive Capacity
  | single
  | multiple
deriving DecidableEq, Repr, Inhabited

namespace Capacity

def name : Capacity → String
  | single => "single"
  | multiple => "multiple"

def choices : List (String × Capacity) := [single, multiple].map fun c => (c.name, c)

end Capacity

/-- A port of a node. Its id is meant to be unique in the whole graph, its name in its node. -/
structure Port where
  id : String
  name : String
  direction : Direction
  dataType : DataType
  capacity : Capacity
  required : Bool
deriving DecidableEq, Repr, Inhabited

namespace Port

/-- An optional input. A value comes from one place; control may come from many. -/
def input (id name : String) (dataType : DataType) : Port :=
  { id, name, direction := .input, dataType,
    capacity := if dataType = .flow then .multiple else .single, required := false }

/-- An output. A value goes to any number of places; control goes to one. -/
def output (id name : String) (dataType : DataType) : Port :=
  { id, name, direction := .output, dataType,
    capacity := if dataType = .flow then .single else .multiple, required := false }

def demanded (p : Port) : Port := { p with required := true }

def shared (p : Port) : Port := { p with capacity := .multiple }

def exclusive (p : Port) : Port := { p with capacity := .single }

def isFlow (p : Port) : Bool := p.dataType = .flow

end Port

end Flowchart
