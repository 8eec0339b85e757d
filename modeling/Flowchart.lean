import Flowchart.Graph.Draft
import Flowchart.Graph.Written
import Flowchart.Inspect.Basic
import Flowchart.Model.Tree
import Flowchart.Proofs.Graph.Reach
import Flowchart.Proofs.Graph.Peeling
import Flowchart.Proofs.Graph.WellFormed
import Flowchart.Proofs.Graph.Editing
import Flowchart.Proofs.Graph.History
import Flowchart.Proofs.Walk.Links
import Flowchart.Proofs.Activity.Play
import Flowchart.Proofs.Walk.Itinerary
import Flowchart.Proofs.Run.Attend
import Flowchart.Proofs.Walk.Guarded
import Flowchart.Proofs.Walk.Built
import Flowchart.Proofs.Model.Direct
import Flowchart.Proofs.Model.Library
import Flowchart.Proofs.Model.Pulling
import Flowchart.Proofs.Model.Growth
import Flowchart.Proofs.Model.Turn
import Flowchart.Proofs.Model.Guards
import Flowchart.Proofs.Model.Simulation
import Flowchart.Proofs.Model.Compilation
import Flowchart.Proofs.Graph.Control
import Flowchart.Proofs.Model.Departures
import Flowchart.Proofs.Model.Survey
import Flowchart.Proofs.Model.Spanning
import Flowchart.Proofs.Model.Following
import Flowchart.Proofs.Model.Selection
import Flowchart.Proofs.Model.Deciding
import Flowchart.Proofs.Model.Passes
import Flowchart.Proofs.Model.Steering
import Flowchart.Proofs.Walk.Preorder
import Flowchart.Proofs.Walk.Emission
import Flowchart.Proofs.Activity.View
import Flowchart.Proofs.Run.Beginning
import Flowchart.Proofs.Walk.Childless
import Flowchart.Proofs.Activity.Puts
import Flowchart.Proofs.Run.Trace
import Flowchart.Proofs.Activity.Stretch
import Flowchart.Proofs.Run.Numbering
import Flowchart.Proofs.Run.Pool
import Flowchart.Proofs.Activity.Scenes
import Flowchart.Proofs.Run.Alike
import Flowchart.Proofs.Run.Begun
import Flowchart.Proofs.Walk.Agreement
import Flowchart.Proofs.Session.Looks
import Flowchart.Proofs.Session.Runs
import Flowchart.Proofs.Activity.Course
import Flowchart.Proofs.Run.Agenda
import Flowchart.Proofs.Run.Stopped
import Flowchart.Proofs.Session.Proceeds
import Flowchart.Proofs.Session.Stopping
import Flowchart.Proofs.Session.Sides
import Flowchart.Proofs.Run.Withdrawn
import Flowchart.Proofs.Run.Surfacing
import Flowchart.Proofs.Run.Answers
import Flowchart.Proofs.Run.Tame
import Flowchart.Proofs.Run.Signed
import Flowchart.Proofs.Model.Conditions
import Flowchart.Proofs.Model.Emitting
import Flowchart.Proofs.Model.Early
import Flowchart.Proofs.Graph.Replay
import Flowchart.Proofs.Run.Visible
import Flowchart.Proofs.Activity.Partway
import Flowchart.Proofs.Run.Spending
import Flowchart.Proofs.Run.History
import Flowchart.Proofs.Model.Nesting
import Flowchart.Proofs.Model.Endless
import Flowchart.Proofs.Graph.Alarm
import Flowchart.Proofs.Model.Unhindered
import Flowchart.Proofs.Model.Tally
import Flowchart.Proofs.Model.Chains
import Flowchart.Proofs.Json.Lexemes
import Flowchart.Proofs.Json.Syntax
import Flowchart.Proofs.Json.Records
import Flowchart.Proofs.Graph.Phantoms
import Flowchart.Proofs.Graph.Mending
import Flowchart.Proofs.Graph.Rearranging
import Flowchart.Proofs.Walk.Sharing
import Flowchart.Proofs.Run.Interleaving
import Flowchart.Proofs.Run.Whole
import Flowchart.Proofs.Session.Resting
import Flowchart.Proofs.Session.Spawning
import Flowchart.Proofs.Json.Grammar
import Flowchart.Proofs.Json.Partial
import Flowchart.Proofs.Model.PortIds
import Flowchart.Proofs.Graph.Search
