import CnotRouting.BlankCharacters
import CnotRouting.CircuitExpansion
import CnotRouting.CircuitFormats
import CnotRouting.CircuitMapping
import CnotRouting.CircuitMetrics
import CnotRouting.CircuitRecords
import CnotRouting.Circuits
import CnotRouting.CouplingGraphs
import CnotRouting.DecimalNumerals
import CnotRouting.DeviceRecords
import CnotRouting.DeviceTexts
import CnotRouting.Devices
import CnotRouting.EdgeLists
import CnotRouting.FirstBest
import CnotRouting.FormatFaults
import CnotRouting.Gates
import CnotRouting.GraphBuilders
import CnotRouting.GraphComponents
import CnotRouting.Interactions
import CnotRouting.Json
import CnotRouting.JsonReading
import CnotRouting.NumberBounds
import CnotRouting.Pipelines
import CnotRouting.PlacementEnumeration
import CnotRouting.PlacementSearch
import CnotRouting.Placements
import CnotRouting.Proofs.BoundedCosts
import CnotRouting.Proofs.CheapestPlacements
import CnotRouting.Proofs.CheckedLists
import CnotRouting.Proofs.ConnectedGraphs
import CnotRouting.Proofs.ConsistentDevices
import CnotRouting.Proofs.CountedInteractions
import CnotRouting.Proofs.DeviceLines
import CnotRouting.Proofs.EnumeratedPlacements
import CnotRouting.Proofs.ExpandedCircuits
import CnotRouting.Proofs.ExpansionCosts
import CnotRouting.Proofs.ForwardParts
import CnotRouting.Proofs.FoundPlacements
import CnotRouting.Proofs.GateActions
import CnotRouting.Proofs.LeastPlacements
import CnotRouting.Proofs.LoadedRoutes
import CnotRouting.Proofs.MappedMeaning
import CnotRouting.Proofs.NativeCircuits
import CnotRouting.Proofs.NativeRoutes
import CnotRouting.Proofs.NextArrangements
import CnotRouting.Proofs.OptimalRoutes
import CnotRouting.Proofs.PathCosts
import CnotRouting.Proofs.PlacedActions
import CnotRouting.Proofs.PlacedCircuits
import CnotRouting.Proofs.ReadDevices
import CnotRouting.Proofs.RouteActions
import CnotRouting.Proofs.RouteParts
import CnotRouting.Proofs.SavedDevices
import CnotRouting.Proofs.SeparatedQubits
import CnotRouting.Proofs.StepActions
import CnotRouting.Proofs.Successors
import CnotRouting.Proofs.ValidGraphs
import CnotRouting.Proofs.WrittenLines
import CnotRouting.Proofs.WrittenMatrices
import CnotRouting.Proofs.WrittenRoutes
import CnotRouting.RecordFields
import CnotRouting.RouteLowering
import CnotRouting.RouteSearch
import CnotRouting.RouteSteps
import CnotRouting.RouteTables
import CnotRouting.Routes
import CnotRouting.RoutingErrors
import CnotRouting.ShortestDecimals
import CnotRouting.TextTokens
import CnotRouting.TokenReading
import CnotRouting.Proofs.MappingFailures
import CnotRouting.Proofs.ReloadedDevices
import CnotRouting.Proofs.MappingRuns
import CnotRouting.Proofs.CutTexts
import CnotRouting.Proofs.TruncatedDevices
import CnotRouting.Proofs.CircuitsInTurn
import CnotRouting.Proofs.TextLayouts
import CnotRouting.Proofs.BuiltCircuits
import CnotRouting.Proofs.VisitedForwardParts
import CnotRouting.Proofs.SearchModes
import CnotRouting.Proofs.StoredRoutes
import CnotRouting.Proofs.GreedyPlacements
import CnotRouting.Proofs.CascadeChains
import CnotRouting.Proofs.CountedPlacements
import CnotRouting.Proofs.FaithfulPlacements
import CnotRouting.Proofs.CountedGates
import CnotRouting.Proofs.JoinedRoutes
import CnotRouting.Proofs.PaddedCircuits
import CnotRouting.Proofs.DependencyChains
import CnotRouting.Proofs.ReadEdgeLists
import CnotRouting.Proofs.ComparedCosts
import CnotRouting.Proofs.SymmetricCosts
import CnotRouting.Proofs.CostliestRoutes
import CnotRouting.Proofs.AdvancedArrangements
import CnotRouting.Proofs.InterruptedRuns
import CnotRouting.Proofs.WrittenJson
import CnotRouting.Proofs.WrittenNumbers
import CnotRouting.Proofs.WrittenCircuits
