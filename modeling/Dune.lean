import Dune.Digest.Isolation
import Dune.Engine.DirSetShape
import Dune.Engine.DirSetSubset
import Dune.Engine.MapWithErrors
import Dune.Engine.StaleArtifacts
import Dune.Fiber.Cancel
import Dune.Fiber.EventBus
import Dune.Fiber.Mvar
import Dune.Fiber.Pool
import Dune.Fiber.Throttle
import Dune.Lang.FormatKeeps
import Dune.Lang.OrderedSet
import Dune.Lang.PredicateRead
import Dune.Memo.Cycles
import Dune.Memo.History
import Dune.Memo.RunPair
import Dune.Pkg.FilterSound
import Dune.Pkg.MergePlatforms
import Dune.Pkg.RevStore
import Dune.Rpc.Glob
import Dune.Rpc.LongPoll
import Dune.Rpc.Packet
import Dune.Rpc.ServerSession
import Dune.Rules.ArtifactDecode
import Dune.Rules.ArtifactSpec
import Dune.Rules.LibDefaults
import Dune.Rules.OpamCreate
import Dune.Sat.Termination
import Dune.Scheduler.ThreadPool
import Dune.Scheme.SchemeMeaning
import Dune.Sexp.AtomValid
import Dune.Sexp.Comments
import Dune.Site.Helpers
import Dune.Stdune.Loc0
import Dune.Stdune.PathCanonical
import Dune.Stdune.PathLocalize
