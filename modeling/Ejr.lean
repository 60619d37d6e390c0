import Ejr.Lib.Wp
import Ejr.Lib.Run
import Ejr.Lib.LittleEndian
import Ejr.Lib.Split
import Ejr.Text
import Ejr.Utils
import Ejr.Trim
import Ejr.ModuleName
import Ejr.JsArg
import Ejr.Engine.Heap
import Ejr.Engine.Call
import Ejr.ToJs
import Ejr.RoundTrip
import Ejr.FromJs
import Ejr.Answers
import Ejr.Footprint
import Ejr.TypedReads
import Ejr.Recursion
import Ejr.Engine.Context
import Ejr.Trampoline
import Ejr.Numbers
import Ejr.CApi.RoundTrip
import Ejr.CApi.Free
import Ejr.CApi.Wrapper
import Ejr.Dispatch
import Ejr.ModuleInit
import Ejr.CApi.Handle
import Ejr.CApi.Effects
import Ejr.CApi.Arguments
import Ejr.CApi.Books
import Ejr.CApi.Ledger
import Ejr.CApi.Shutdown
import Ejr.CApi.OverRelease
import Ejr.CApi.Errors
import Ejr.CApi.Ids
import Ejr.CApi.DeadIds
import Ejr.CApi.Await
import Ejr.Distinct
import Ejr.Reached
import Ejr.NullStrings
import Ejr.Releases
import Ejr.Custody
import Ejr.EjrValue
import Ejr.CApi.Fill
import Ejr.CApi.Build
import Ejr.Lib.Nested
import Ejr.Decimal
import Ejr.CApi.Render
import Ejr.CApi.Texts
import Ejr.CApi.ArgList
import Ejr.Lib.Interludes
import Ejr.Lib.Simulation
import Ejr.CApi.Balance
import Ejr.Pending
import Ejr.Imports
import Ejr.StableText
import Ejr.FreedReads
import Ejr.Crossing
import Ejr.CApi.Invoke
import Ejr.CApi.PureCallbacks
import Ejr.CApi.Leaks
import Ejr.NumberBits
import Ejr.CApi.RemoteCall
import Ejr.Specifiers
import Ejr.CApi.Graphs
import Ejr.Loading
import Ejr.LoadGraph
import Ejr.LoadRuns
import Ejr.LoadReach
import Ejr.ModuleSearch
import Ejr.Linking
import Ejr.Evaluated
import Ejr.Evaluating
import Ejr.Visits
import Ejr.Promises
import Ejr.ModuleRuns
