import BestFirst.Network.Builder
import BestFirst.Session
import BestFirst.Proofs.Store.Ledger
import BestFirst.Proofs.Store.Chronicle
import BestFirst.Proofs.Store.Paths
import BestFirst.Proofs.Network.Extension
import BestFirst.Proofs.Network.Safety
import BestFirst.Proofs.Network.Dimensions
import BestFirst.Proofs.Network.Survey
import BestFirst.Proofs.Network.Capacity
import BestFirst.Proofs.Search.Dijkstra
import BestFirst.Proofs.Search.Guidance
import BestFirst.Proofs.Search.StraightLine
import BestFirst.Proofs.Search.Estimates
import BestFirst.Proofs.Search.SimplePaths
import BestFirst.Proofs.Search.Statistics
import BestFirst.Proofs.Search.Redundancy
import BestFirst.Proofs.Search.Parallels
import BestFirst.Proofs.Search.Improvement
import BestFirst.Proofs.Search.Neighbours
import BestFirst.Proofs.Session.Failures
