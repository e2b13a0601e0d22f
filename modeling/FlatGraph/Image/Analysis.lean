import FlatGraph.Image.Parse
import FlatGraph.Search.Component
import FlatGraph.Search.Depth
import FlatGraph.Search.Level
import FlatGraph.Search.ShortestPath

/-! # Analyses of a graph file

The searches, the component counts and the statistics of a graph file, on the positions of its
nodes. -/

namespace FlatGraph.Image

/-- The graph as the searches see it. -/
def adjacency (image : Image) : Adjacency := ⟨image.nodes.size, image.targets⟩

/-- The number of edges out of each node, by its chain. -/
def degreeDistribution (image : Image) : List Nat :=
  (List.range image.nodes.size).map fun position => (image.targets position).length

/-- The number of components. -/
def componentCount (image : Image) : ComponentMode → Except Fault Nat
  | .weak => .ok (weakComponents image.nodes.size image.ends)
  | .reachability => image.adjacency.sweeps

/-- The statistics counted afresh from the tables. -/
def recount (image : Image) : Statistics := Statistics.compute image.nodes.size image.ends

/-- How the statistics in a file compare with those of its tables. -/
inductive StatisticsCheck
  | absent
  | agreement
  | mismatch (stored actual : Statistics)
  deriving DecidableEq

/-- Compares the statistics in the file with those of its tables. -/
def checkStatistics (image : Image) : StatisticsCheck :=
  match image.statistics with
  | none => .absent
  | some stored =>
    let actual := image.recount
    if stored.agrees actual then .agreement else .mismatch stored actual

end FlatGraph.Image
