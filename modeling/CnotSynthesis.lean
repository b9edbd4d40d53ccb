import CnotSynthesis.Circuit.Document
import CnotSynthesis.Config.Document
import CnotSynthesis.Graph.Document
import CnotSynthesis.Matrix.Text
import CnotSynthesis.Synthesis
import CnotSynthesis.Proofs.Matrix.ModTwo
import CnotSynthesis.Proofs.Matrix.RowAdditions
import CnotSynthesis.Proofs.Matrix.ReducedForm
import CnotSynthesis.Proofs.Matrix.Text
import CnotSynthesis.Proofs.Matrix.Packing
import CnotSynthesis.Proofs.Circuit.Parity
import CnotSynthesis.Proofs.Elimination.Steps
import CnotSynthesis.Proofs.Elimination.Transcript
import CnotSynthesis.Proofs.Elimination.Gauss
import CnotSynthesis.Proofs.Elimination.Companion
import CnotSynthesis.Proofs.Sorting
import CnotSynthesis.Proofs.Graph.Adjacency
import CnotSynthesis.Proofs.Graph.BreadthFirst
import CnotSynthesis.Proofs.Graph.Connectivity
import CnotSynthesis.Proofs.Graph.DepthFirst
import CnotSynthesis.Proofs.Graph.EliminationOrder
import CnotSynthesis.Proofs.Graph.SteinerTree
import CnotSynthesis.Proofs.Graph.RootedTrees
import CnotSynthesis.Proofs.Graph.Layers
import CnotSynthesis.Proofs.Graph.NearestTerminal
import CnotSynthesis.Proofs.Graph.LeastWays
import CnotSynthesis.Proofs.Graph.FactorTwo
import CnotSynthesis.Proofs.Graph.CutVertices
import CnotSynthesis.Proofs.Graph.ShortestPaths
import CnotSynthesis.Proofs.Graph.Couplings
import CnotSynthesis.Proofs.Graph.Standard
import CnotSynthesis.Proofs.Graph.Document
import CnotSynthesis.Proofs.Elimination.TreePasses
import CnotSynthesis.Proofs.Elimination.Coupled
import CnotSynthesis.Proofs.Elimination.Recording
import CnotSynthesis.Proofs.Elimination.Clearing
import CnotSynthesis.Proofs.Elimination.AlongTrees
import CnotSynthesis.Proofs.Elimination.SteinerAlongOrder
import CnotSynthesis.Proofs.Elimination.SteinerByRow
import CnotSynthesis.Proofs.Elimination.StandardGraphs
import CnotSynthesis.Proofs.Elimination.CleanColumns
import CnotSynthesis.Proofs.Elimination.Vertex
import CnotSynthesis.Proofs.Elimination.BestFirst
import CnotSynthesis.Proofs.Placement.Operators
import CnotSynthesis.Proofs.Placement.Inheritance
import CnotSynthesis.Proofs.Placement.Genetic
import CnotSynthesis.Proofs.Placement.Ranking
import CnotSynthesis.Proofs.Placement.GeneticCourse
import CnotSynthesis.Proofs.Placement.SwarmCourse
import CnotSynthesis.Proofs.Circuit.Realisation
import CnotSynthesis.Proofs.Elimination.Solving
import CnotSynthesis.Proofs.Circuit.Inverse
import CnotSynthesis.Proofs.Circuit.Layering
import CnotSynthesis.Proofs.Circuit.Algebra
import CnotSynthesis.Proofs.Circuit.DepthBounds
import CnotSynthesis.Proofs.Circuit.Histories
import CnotSynthesis.Proofs.Elimination.Factoring
import CnotSynthesis.Proofs.Elimination.BranchTree
import CnotSynthesis.Proofs.Elimination.Rounds
import CnotSynthesis.Proofs.Elimination.GreedySearch
import CnotSynthesis.Proofs.Elimination.Strategies
import CnotSynthesis.Proofs.Placement.Chain
import CnotSynthesis.Proofs.Placement.Composition
import CnotSynthesis.Proofs.Placement.ReducedChains
import CnotSynthesis.Proofs.Method
import CnotSynthesis.Proofs.Placement.NeverWorse
import CnotSynthesis.Proofs.Nesting
import CnotSynthesis.Proofs.Placement.EntryLayouts
import CnotSynthesis.Proofs.Synthesis
import CnotSynthesis.Proofs.Synthesis.Runs
import CnotSynthesis.Proofs.Synthesis.TransposeTrial
import CnotSynthesis.Proofs.Synthesis.Remainder
import CnotSynthesis.Proofs.Synthesis.DownwardOnly
import CnotSynthesis.Proofs.Synthesis.Chains
