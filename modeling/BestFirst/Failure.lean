import BestFirst.Index

namespace BestFirst

inductive BuilderCall
  | addNode
  | addEdge
  | setNodeNumber
  | setNodeVector
  | setEdgeNumber
  | build
  deriving DecidableEq

inductive Refusal
  | consumed
  | duplicateNode (id : String)
  | duplicateEdge (id : String)
  | unknownNode (id : String)
  | unknownEdge (id : String)
  | notFinite (key : String)
  deriving DecidableEq

inductive Role
  | source
  | target
  deriving DecidableEq

inductive Failure
  | nodeOutOfRange (u : NodeIndex)
  | edgeOutOfRange (e : EdgeIndex)
  | refused (call : BuilderCall) (cause : Refusal)
  | noPosition (id : String)
  | noSuchParent (parent : Int)
  | notOpen
  | noGraph
  | noCosts
  | endpointNotFound (role : Role) (id : String)
  | unfinished
  deriving DecidableEq

inductive Failure.Kind
  | outOfRange
  | value
  | runtime
  | missingPosition
  | unboundGraph
  | nodeNotFound
  | invalidArgument
  | logic
  deriving DecidableEq

def Failure.kind : Failure → Kind
  | nodeOutOfRange _     => .outOfRange
  | edgeOutOfRange _     => .outOfRange
  | noSuchParent _       => .outOfRange
  | refused _ .consumed  => .runtime
  | refused _ _          => .value
  | noPosition _         => .missingPosition
  | notOpen              => .logic
  | noGraph              => .unboundGraph
  | noCosts              => .invalidArgument
  | endpointNotFound _ _ => .nodeNotFound
  | unfinished           => .runtime

def BuilderCall.label : BuilderCall → String
  | addNode       => "GraphBuilder::add_node"
  | addEdge       => "GraphBuilder::add_edge"
  | setNodeNumber => "GraphBuilder::set_node_number"
  | setNodeVector => "GraphBuilder::set_node_vector"
  | setEdgeNumber => "GraphBuilder::set_edge_number"
  | build         => "GraphBuilder::build"

def BuilderCall.valueWord : BuilderCall → String
  | setNodeVector => "values"
  | _             => "value"

def Refusal.message (call : BuilderCall) : Refusal → String
  | consumed         => "builder already consumed"
  | duplicateNode id => "duplicate node '" ++ id ++ "'"
  | duplicateEdge id => "duplicate edge '" ++ id ++ "'"
  | unknownNode id   => "unknown node '" ++ id ++ "'"
  | unknownEdge id   => "unknown edge '" ++ id ++ "'"
  | notFinite key    => call.valueWord ++ " for '" ++ key ++ "' must be finite"

def Role.label : Role → String
  | source => "source"
  | target => "target"

def Failure.message : Failure → String
  | nodeOutOfRange u         => "node index out of range: " ++ toString u
  | edgeOutOfRange e         => "edge index out of range: " ++ toString e
  | refused call cause       => call.label ++ ": " ++ cause.message call
  | noPosition id            => "node '" ++ id ++ "' has no position"
  | noSuchParent p           =>
    "SearchStore::open_record: parent " ++ toString p ++ " is not a record of this run"
  | notOpen                  => "SearchStore::close: record is not the open record of its node"
  | noGraph                  => "AStar::compute: no graph bound (call init first)"
  | noCosts                  => "AStar::set_costs: cost model must not be null"
  | endpointNotFound role id => role.label ++ " node '" ++ id ++ "' does not exist in the graph"
  | unfinished               => "the search did not end within its limit of turns"

end BestFirst
