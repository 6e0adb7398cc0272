import Choam.Lib.Overlay
import Choam.Verify.RoundTrip
import Choam.Lib.ByteString
import Choam.Store.Reference
import Choam.Verify.Poison
import Choam.Verify.SessionRun
import Choam.Verify.AccessPath
import Choam.Verify.Unique
import Choam.Verify.KeySpace
import Choam.Verify.Shell
import Choam.Verify.Readable
import Choam.Verify.StaticErrors
import Choam.Verify.Visibility
import Choam.Verify.Conflict
import Choam.Verify.Exact
import Choam.Verify.Reordering
import Choam.Verify.Agreement
import Choam.Verify.Torn
import Choam.Verify.Reuse
import Choam.Verify.Describe
import Choam.Verify.Respelling
import Choam.Sql.ByteLexer
import Choam.Verify.Boundaries
import Choam.Verify.Lossless
import Choam.Verify.Serial
import Choam.Verify.Relational
import Choam.Verify.Refine
import Choam.Verify.Linearizable
import Choam.Verify.Queries
import Choam.Verify.Transcript
import Choam.Verify.Output
import Choam.Verify.Restore
import Choam.Verify.Table
import Choam.Verify.Commute
import Choam.Verify.Handle
import Choam.Verify.Reject
import Choam.Verify.Evolution
