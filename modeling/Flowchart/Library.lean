import Flowchart.Node

/-! The nodes of the library. -/
namespace Flowchart.Library

/-- The id of a library node's port: the id of the node, a point, and the name of the port. -/
def portId (node name : String) : String := node ++ "." ++ name

def execName : String := "exec"

def nextName : String := "next"

def input (node name : String) (t : DataType) : Port := .input (portId node name) name t

def output (node name : String) (t : DataType) : Port := .output (portId node name) name t

def constant (id : String) (t : DataType := .any) : Node :=
  { id, kind := "constant", ports := [output id "value" t] }

/-- A node with the sum of two numbers. -/
def add (id : String) : Node :=
  { id, kind := "add"
    ports := [(input id "a" .number).demanded, (input id "b" .number).demanded,
      output id "sum" .number] }

def getVariable (id : String) : Node :=
  { id, kind := "get-variable", ports := [output id "value" .any] }

def setVariable (id : String) : Node :=
  { id, kind := "set-variable"
    ports := [input id execName .flow, (input id "value" .any).demanded, output id nextName .flow] }

def print (id : String) : Node :=
  { id, kind := "print"
    ports := [input id execName .flow, input id "value" .any, output id nextName .flow] }

def passage (id kind : String) : Node :=
  { id, kind, ports := [input id execName .flow, output id nextName .flow] }

def delay (id : String) : Node := passage id "delay"

def fail (id : String) : Node := passage id "fail"

/-- A node that sends control one of two ways, and then on. -/
def branch (id : String) : Node :=
  { id, kind := "branch"
    ports := [input id execName .flow, (input id "condition" .boolean).demanded,
      output id "true" .flow, output id "false" .flow, output id nextName .flow] }

end Flowchart.Library
