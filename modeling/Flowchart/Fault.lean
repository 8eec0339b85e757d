import Flowchart.Graph.Defect

/-! What can go wrong when a flowchart is compiled or run. -/
namespace Flowchart

/-- A cause of failure. -/
inductive Fault
  | defect (d : Defect)
  | unknownToken (id : Nat)
  | missingRoot
  /-- A token was reached a second time in one pass. -/
  | tokenRevisited (id : Nat) (label : String)
  | tokenLimit (limit : Nat)
  | duplicateFlowPath (node : String)
  | nodeNotFound (node : String)
  | portNotFound (port : String)
  | noPortValue (node port : String)
  | missingInput (input : String)
  | invalidInput (input expected : String)
  | resolveFailed (token : String) (source : Fault)
  | unitFailed (unit token : String) (source : Fault)
  | failed (message : String)
  | planConsumed (plan : String)
  | cancelled
  /-- A run broke off without a result. -/
  | lost (reason : String)
  /-- A text could not be read. -/
  | unreadable (reason : String)
  | endlessPull
deriving DecidableEq, Repr, Inhabited

namespace Fault

def message : Fault → String
  | defect d => s!"Validation failed: {d.message}"
  | unknownToken id => s!"Unknown token: {id}"
  | missingRoot => "Token tree has no root"
  | tokenRevisited id label => s!"Token '{label}' (#{id}) reached twice in one pass"
  | tokenLimit limit => s!"Token limit exceeded ({limit} tokens)"
  | duplicateFlowPath node => s!"Node '{node}' is reached through more than one flow path"
  | nodeNotFound node => s!"Node not found: {node}"
  | portNotFound port => s!"Port not found: {port}"
  | noPortValue node port => s!"Node '{node}' has no value for port '{port}'"
  | missingInput input => s!"Missing required input: {input}"
  | invalidInput input expected => s!"Invalid input type for '{input}': expected {expected}"
  | resolveFailed token source => s!"Resolving token '{token}' failed: {source.message}"
  | unitFailed unit token source => s!"Unit '{unit}' of token '{token}' failed: {source.message}"
  | failed text => s!"Execution failed: {text}"
  | planConsumed plan => s!"Plan '{plan}' has already been executed"
  | cancelled => "Flow cancelled"
  | lost reason => s!"Run task failed: {reason}"
  | unreadable reason => s!"Serialization error: {reason}"
  | endlessPull => "Pulling a value never ends"

/-- Whether a fault is a cancellation or wraps one. -/
def isCancelled : Fault → Bool
  | cancelled => true
  | resolveFailed _ source | unitFailed _ _ source => source.isCancelled
  | _ => false

def sources : Fault → List String
  | defect d => [d.message]
  | resolveFailed _ source | unitFailed _ _ source => source.message :: source.sources
  | unreadable reason => [reason]
  | _ => []

end Fault

abbrev Outcome := Except Fault Unit

end Flowchart
