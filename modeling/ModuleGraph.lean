import ModuleGraph.Document.Reader
import ModuleGraph.FileTree
import ModuleGraph.Main
import ModuleGraph.Proofs.AllPaths
import ModuleGraph.Proofs.ShortestPath
import ModuleGraph.Proofs.Tree
import ModuleGraph.Proofs.TreeDepth
import ModuleGraph.Proofs.Declared
import ModuleGraph.Proofs.Validation
import ModuleGraph.Proofs.BuiltGraph
import ModuleGraph.Proofs.Coverage
import ModuleGraph.Proofs.Answer
import ModuleGraph.Proofs.Resolution
import ModuleGraph.Proofs.RunErrors
import ModuleGraph.Proofs.FilterText
import ModuleGraph.Proofs.ReorderedRun
import ModuleGraph.Proofs.Confinement
import ModuleGraph.Proofs.FilterInclusion
import ModuleGraph.Proofs.Agreement
import ModuleGraph.Proofs.Identity
import ModuleGraph.Proofs.JsonText
import ModuleGraph.Proofs.Except
import ModuleGraph.Proofs.ValueText
import ModuleGraph.Proofs.Lossless
import ModuleGraph.Proofs.DocumentText
import ModuleGraph.Proofs.BareNames
import ModuleGraph.Proofs.RepoNames
import ModuleGraph.Proofs.ArgumentLists
import ModuleGraph.Proofs.UnusedVersions
import ModuleGraph.Proofs.EnumerationLimits
import ModuleGraph.Proofs.RecursiveListing
import ModuleGraph.Proofs.LeastCause
import ModuleGraph.Proofs.Diamonds
import ModuleGraph.Proofs.ModuleLists
import ModuleGraph.Proofs.ExtensionChoice
import ModuleGraph.Proofs.CycleParticipants
import ModuleGraph.Proofs.Drawing
import ModuleGraph.Proofs.UsageReports
import ModuleGraph.Proofs.ReferenceText
import ModuleGraph.Proofs.Pruning
import ModuleGraph.Proofs.EnumerationLoop
import ModuleGraph.Proofs.EliminationLoop
import ModuleGraph.Proofs.IndexedVersions
import ModuleGraph.Proofs.SortedEdges
import ModuleGraph.Proofs.MarkedSearch
import ModuleGraph.Proofs.ParentLinks
