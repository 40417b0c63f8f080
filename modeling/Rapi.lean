import Rapi.Filter.Semantics
import Rapi.Backend.Retry
import Rapi.Cache.Progress
import Rapi.Restorer.Containment
import Rapi.Restorer.VerifyFiles
import Rapi.Restorer.RestoredFiles
import Rapi.Restorer.Hardlinks
import Rapi.Archiver.TargetPaths
import Rapi.Archiver.ReadableSnapshots
import Rapi.Restic.KeptSnapshots
import Rapi.Restic.SnapshotTags
import Rapi.Restic.NodeJSON
import Rapi.Pack.Canonical
import Rapi.Pack.Locate
import Rapi.Repository.IndexMapRefinement
import Rapi.Repository.Announcing
import Rapi.Repository.Rebuilt
import Rapi.Checker.Packs
import Rapi.Checker.UnusedBlobs
import Rapi.Repository.IndexViews
import Rapi.Repository.MixedPacks
import Rapi.Repository.Repacked
import Rapi.Repository.FlushAgain
import Rapi.Repository.Obsolete
import Rapi.Restic.BackendFind
import Rapi.Restic.FindLatest
import Rapi.Locking.Refresh
import Rapi.Checker.ShortData
import Rapi.Cmd.Rescue
import Rapi.Fuse.Following
import Rapi.Fuse.Latest
import Rapi.Dump.Complete
import Rapi.Dump.Acl
import Rapi.Restic.CanonicalTree
import Rapi.Restorer.VerifiedContent
import Rapi.Walker.Order
