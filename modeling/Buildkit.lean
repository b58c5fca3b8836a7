import Buildkit.Lib.Bolt
import Buildkit.Lib.Cursor
import Buildkit.Lib.Loop
import Buildkit.Lib.Outcome
import Buildkit.Lib.Path
import Buildkit.Lib.Radix
import Buildkit.Lib.Sort
import Buildkit.Lib.Split
import Buildkit.Lib.Strings
import Buildkit.Lib.Url
import Buildkit.Solver.Types
import Buildkit.Solver.Pb
import Buildkit.Solver.Llbsolver.Vertex
import Buildkit.Solver.Llbsolver.Ops.Exec
import Buildkit.Solver.Llbsolver.Ops.CacheRefs
import Buildkit.Solver.MemoryCacheStorage
import Buildkit.Solver.MemoryCacheStorage.Invariant
import Buildkit.Solver.MemoryCacheStorage.Release
import Buildkit.Solver.BboltCacheStorage
import Buildkit.Solver.BboltCacheStorage.Release
import Buildkit.Solver.CacheKey
import Buildkit.Solver.Index
import Buildkit.Solver.CacheManager
import Buildkit.Solver.Result
import Buildkit.Solver.Jobs
import Buildkit.Solver.Jobs.Load
import Buildkit.Solver.Edge
import Buildkit.Solver.Edge.Frame
import Buildkit.Solver.Edge.Roles
import Buildkit.Solver.Edge.Request
import Buildkit.Solver.Edge.Bounds
import Buildkit.Solver.Edge.Liveness
import Buildkit.Solver.Edge.Invariant
import Buildkit.Solver.Edge.Dispatch
import Buildkit.Solver.Edge.Run
import Buildkit.Solver.Edge.Probe
import Buildkit.Solver.Scheduler
import Buildkit.Source.Identifier
import Buildkit.Executor.Oci.Spec
import Buildkit.Exporter.Containerimage.Writer
import Buildkit.Client.Llb.Source
import Buildkit.Client.Llb.Exec
import Buildkit.Client.Llb.Meta
import Buildkit.Frontend.Dockerfile.Parser.LineParsers
import Buildkit.Frontend.Dockerfile.Parser.Parse
import Buildkit.Frontend.Dockerfile.Parser.SplitCommand
import Buildkit.Frontend.Dockerfile.Shell.Lex
import Buildkit.Frontend.Dockerfile.Instructions.RunMount
import Buildkit.Frontend.Dockerfile2llb.Convert
import Buildkit.Frontend.Dockerfile2llb.ContextPaths
import Buildkit.Frontend.Dockerfile2llb.Stages
import Buildkit.Cache.Metadata
import Buildkit.Cache.Refs
import Buildkit.Cache.Manager
import Buildkit.Cache.Manager.DiskUsage
import Buildkit.Cache.Contenthash.Checksum
import Buildkit.Cache.Remotecache.V1.Chains
import Buildkit.Cache.Remotecache.V1.Marshal
import Buildkit.Cache.Remotecache.V1.CacheStorage
import Buildkit.Util.Flightcontrol
import Buildkit.Frontend.Dockerfile.Instructions.Bflag
import Buildkit.Frontend.Dockerfile.Instructions.Parse
import Buildkit.Solver.Internal.Pipe
