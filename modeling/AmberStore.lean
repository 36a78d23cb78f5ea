import AmberStore.ReferenceSpec
import AmberStore.Commit.WireSpec
import AmberStore.Amberpack.StreamSpec
import AmberStore.BinaryFuse.Total
import AmberStore.Packstore.Missing
import AmberStore.Packstore.VerifySpec
import AmberStore.Packstore.GateSpec
import AmberStore.Packstore.CreationSpec
import AmberStore.Packstore.LookupSpec
import AmberStore.Packstore.ViewSpec
import AmberStore.Packstore.Poll
import AmberStore.Packstore.VersionsSpec
import AmberStore.Packstore.FailedWrites
import AmberStore.Inbox.Barrier
import AmberStore.Gitobj.Grammar
import AmberStore.Packstore.MarkSetSpec
import AmberStore.Gc.MarkSpec
import AmberStore.Fstree.CollectSpec
import AmberStore.Fstree.DirectoryReaderSpec
import AmberStore.ChunkersSpec
import AmberStore.Fstree.IndexTree
import AmberStore.Ingest.FileSpec
import AmberStore.Fstree.DirBuilderSpec
import AmberStore.Fstree.XattrsSpec
import AmberStore.Tar.SafeJoinSpec
import AmberStore.Tar.TimeSpec
import AmberStore.Refstore.CasSpec
import AmberStore.Amberignore.GlobSpec
