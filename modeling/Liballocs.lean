import Liballocs.Proofs.DeleteRange
import Liballocs.Proofs.Brk
import Liballocs.Proofs.Overrun
import Liballocs.Proofs.Grouping
import Liballocs.Proofs.PlugHole
import Liballocs.Proofs.Maps
import Liballocs.Proofs.BitmapSearch
import Liballocs.Proofs.FailedRealloc
import Liballocs.Proofs.SmallChunk
import Liballocs.Proofs.SmallSizes
import Liballocs.Proofs.SmallOverlap
import Liballocs.Proofs.PackedWalk
import Liballocs.Proofs.AllocaLayout
import Liballocs.Proofs.AllocaCleanup
import Liballocs.Proofs.CommonParent
import Liballocs.Proofs.Mappings
import Liballocs.Proofs.MemrangeCache
import Liballocs.Proofs.AllocsiteQuery
import Liballocs.Proofs.StaticSymbol
import Liballocs.Proofs.WalkDf
import Liballocs.Proofs.Subobjects
import Liballocs.Proofs.BfsAdjacency
import Liballocs.Proofs.BfsDistances
import Liballocs.Proofs.UniqtypeUtil
import Liballocs.Proofs.StackWalk
import Liballocs.Proofs.PrivateMalloc
import Liballocs.Proofs.DumpAllocs
import Liballocs.Proofs.DwarfMachine
import Liballocs.Proofs.Typesig
import Liballocs.Proofs.GoldPlugin
import Liballocs.Proofs.CompilerWrapper
import Liballocs.Proofs.EmitAsm
