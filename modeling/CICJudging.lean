import CICJudging.Library.Transition
import CICJudging.Library.WhileLoop
import CICJudging.Library.GreedyScan
import CICJudging.Library.ReadModifyWrite
import CICJudging.Library.Text
import CICJudging.Library.Json
import CICJudging.Library.Handler
import CICJudging.Library.Allotment
import CICJudging.Library.StoreViews
import CICJudging.Library.Positional
import CICJudging.Library.SortedEntries
import CICJudging.Library.PathStore
import CICJudging.Database.Root
import CICJudging.Database.Export
import CICJudging.Database.KeyOrder
import CICJudging.Database.PushId
import CICJudging.Database.SortedTree
import CICJudging.Database.TreeRemoval
import CICJudging.Database.TreeBuilder
import CICJudging.Database.SortedDictionary
import CICJudging.Database.KeyEnumerator
import CICJudging.Database.Node
import CICJudging.Functions.Compare
import CICJudging.Functions.FillLoop
import CICJudging.Functions.AssignedQueue
import CICJudging.Functions.FillTermination
import CICJudging.Functions.FillReference
import CICJudging.Functions.Calls
import CICJudging.Functions.QueueInvariant
import CICJudging.Functions.LostUpdate
import CICJudging.Functions.SubmitRace
import CICJudging.Functions.HeldTeams
import CICJudging.Functions.LeastScored
import CICJudging.Functions.Rounds
import CICJudging.Functions.Coverage
import CICJudging.Functions.Interference
import CICJudging.App.JudgedLog
import CICJudging.App.ScoringScreen
import CICJudging.App.TeamLists
import CICJudging.App.SearchFilter
import CICJudging.App.Decodables
import CICJudging.App.Observers
import CICJudging.App.AllTeams
import CICJudging.App.ScoringSnapshots
import CICJudging.App.JudgedTeams
import CICJudging.App.CacheOwner
import CICJudging.App.Device
import CICJudging.App.Login
import CICJudging.App.Relaunch
import CICJudging.App.ScoringCells
import CICJudging.App.QueueScreen
import CICJudging.App.LoginFlow
import CICJudging.App.Serializer
import CICJudging.App.StoredScores
