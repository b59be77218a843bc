import PersistentStore.Support.LinkedList
import PersistentStore.Ralloc.SizeClass
import PersistentStore.Ralloc.Heap
import PersistentStore.Ralloc.Soundness
import PersistentStore.Ralloc.StrayPointer
import PersistentStore.Clht.LostTable
import PersistentStore.Clht.ResizeHelpExact
import PersistentStore.Epoche.Reclamation
import PersistentStore.Ralloc.Shutdown
import PersistentStore.Ralloc.Survival
import PersistentStore.Ralloc.RegionAllocator
import PersistentStore.Ralloc.Realloc
import PersistentStore.Masstree.OptimisticRead
import PersistentStore.Ralloc.SmallSbAlloc
import PersistentStore.Ralloc.AnchorSafety
import PersistentStore.Clht.ResizeEnds
import PersistentStore.Clht.ConcurrentGet
import PersistentStore.Clht.ResizeAfterCrash
import PersistentStore.BwTree.Lookup
import PersistentStore.BwTree.ChunkAllocator
import PersistentStore.BwTree.Consolidation
import PersistentStore.Ralloc.SelfRelative
import PersistentStore.Ralloc.AddressArithmetic
import PersistentStore.BwTree.InnerSeps
import PersistentStore.BwTree.LeafSplit
import PersistentStore.Masstree.Partition
import PersistentStore.Masstree.PermuterSequence
import PersistentStore.Masstree.StringKey
import PersistentStore.Art.Replace
import PersistentStore.Art.TreeRange
