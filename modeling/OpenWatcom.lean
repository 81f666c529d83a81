import OpenWatcom.Bdiff.HoleRuns
import OpenWatcom.Bdiff.Holes
import OpenWatcom.Bdiff.Patch
import OpenWatcom.Bdiff.Rebuild
import OpenWatcom.Cc.ConstFold
import OpenWatcom.Cc.ConstFoldSound
import OpenWatcom.Cc.Include
import OpenWatcom.Cc.PpCond
import OpenWatcom.Cc.PpExpn
import OpenWatcom.Cc.PpParse
import OpenWatcom.Cc.PpSyntax
import OpenWatcom.Cc.PpValue
import OpenWatcom.Cc.Stringize
import OpenWatcom.Cfloat.Convert
import OpenWatcom.Cfloat.Divide
import OpenWatcom.Cfloat.Integers
import OpenWatcom.Cfloat.Normal
import OpenWatcom.Cfloat.Number
import OpenWatcom.Cfloat.Quotient
import OpenWatcom.Cfloat.Ranges
import OpenWatcom.Cfloat.Rounding
import OpenWatcom.Cfloat.Runs
import OpenWatcom.Cfloat.Sum
import OpenWatcom.Cg.BldSel
import OpenWatcom.Cg.ConvOps
import OpenWatcom.Cg.Dominate
import OpenWatcom.Cg.FoldCompare
import OpenWatcom.Cg.FoldReduce
import OpenWatcom.Cg.FoldValues
import OpenWatcom.Cg.Multiply
import OpenWatcom.Cg.PeepOpt
import OpenWatcom.Cg.PeepOptSound
import OpenWatcom.Cg.ReduceSound
import OpenWatcom.Cg.SearchTree
import OpenWatcom.Cg.SelOrder
import OpenWatcom.Cg.SysV
import OpenWatcom.Cg.TableWalks
import OpenWatcom.Cg.TreeFold
import OpenWatcom.Clib.BSearch
import OpenWatcom.Clib.BrkTime
import OpenWatcom.Clib.DstRules
import OpenWatcom.Clib.FixedPoint
import OpenWatcom.Clib.FreeCount
import OpenWatcom.Clib.Heap
import OpenWatcom.Clib.HeapAlloc
import OpenWatcom.Clib.HeapChecks
import OpenWatcom.Clib.HeapExpand
import OpenWatcom.Clib.HeapFree
import OpenWatcom.Clib.HeapRuns
import OpenWatcom.Clib.HeapShape
import OpenWatcom.Clib.HeapWalk
import OpenWatcom.Clib.IsInDst
import OpenWatcom.Clib.LocalTime
import OpenWatcom.Clib.MiniHeapRuns
import OpenWatcom.Clib.MiniHeaps
import OpenWatcom.Clib.MkTime
import OpenWatcom.Clib.PathParts
import OpenWatcom.Clib.SplitPath
import OpenWatcom.Clib.Strtol
import OpenWatcom.Clib.StrtolStandard
import OpenWatcom.Clib.TzSet
import OpenWatcom.Clib.TzSetForm
import OpenWatcom.Clib.Xtoa
import OpenWatcom.Dwarf.HandleIndex
import OpenWatcom.Dwarf.HandleRuns
import OpenWatcom.Dwarf.Handles
import OpenWatcom.Dwarf.LineGen
import OpenWatcom.Dwarf.LineRows
import OpenWatcom.Dwarf.LineRuns
import OpenWatcom.Dwarf.LineWalk
import OpenWatcom.Hdr.AlgHeap
import OpenWatcom.Hdr.AlgSort
import OpenWatcom.Lib.BitRows
import OpenWatcom.Lib.BitStreams
import OpenWatcom.Lib.Buckets
import OpenWatcom.Lib.Bytes
import OpenWatcom.Lib.Calendar
import OpenWatcom.Lib.CanonicalCodes
import OpenWatcom.Lib.Chains
import OpenWatcom.Lib.CircularBuffer
import OpenWatcom.Lib.Deltas
import OpenWatcom.Lib.Digits
import OpenWatcom.Lib.Dominators
import OpenWatcom.Lib.Events
import OpenWatcom.Lib.Ia32
import OpenWatcom.Lib.InPlace
import OpenWatcom.Lib.Intervals
import OpenWatcom.Lib.Kraft
import OpenWatcom.Lib.LinkedTrees
import OpenWatcom.Lib.Links
import OpenWatcom.Lib.Narrowing
import OpenWatcom.Lib.NearestEven
import OpenWatcom.Lib.Numerals
import OpenWatcom.Lib.Overlap
import OpenWatcom.Lib.Packing
import OpenWatcom.Lib.Pieces
import OpenWatcom.Lib.QSort
import OpenWatcom.Lib.Rings
import OpenWatcom.Lib.Rounds
import OpenWatcom.Lib.SearchTrees
import OpenWatcom.Lib.SeekFile
import OpenWatcom.Lib.SkipLists
import OpenWatcom.Lib.Stores
import OpenWatcom.Lib.Stride
import OpenWatcom.Lib.TableCrc
import OpenWatcom.Lib.Tables
import OpenWatcom.Lib.Transfers
import OpenWatcom.Lib.Windows
import OpenWatcom.Lib.WordSets
import OpenWatcom.Nwlib.SymLinks
import OpenWatcom.Nwlib.SymSound
import OpenWatcom.Nwlib.SymTable
import OpenWatcom.Trap.SerLink
import OpenWatcom.Trap.SerLinkRuns
import OpenWatcom.Trap.SerialIo
import OpenWatcom.Trap.SerialIoRuns
import OpenWatcom.Watcom.I64
import OpenWatcom.Watcom.I64Convert
import OpenWatcom.Watcom.I64Memory
import OpenWatcom.Watcom.Leb128
import OpenWatcom.Watcom.SortList
import OpenWatcom.Watcom.SortListRuns
import OpenWatcom.Wl.ArDict
import OpenWatcom.Wl.ArSearch
import OpenWatcom.Wl.AutoGrp
import OpenWatcom.Wl.AutoGrpRuns
import OpenWatcom.Wl.FarCallRuns
import OpenWatcom.Wl.FarCalls
import OpenWatcom.Wl.Fixups
import OpenWatcom.Wl.SelfRel
import OpenWatcom.Wl.SpillIo
import OpenWatcom.Wl.StrTab
import OpenWatcom.Wpack.CalcLengths
import OpenWatcom.Wpack.CheckCrc
import OpenWatcom.Wpack.CodeTable
import OpenWatcom.Wpack.DoDecode
import OpenWatcom.Wpack.FirstPass
import OpenWatcom.Wpack.GetBits
import OpenWatcom.Wpack.LongestMatch
import OpenWatcom.Wpack.NoShannon
import OpenWatcom.Wpack.PutBits
import OpenWatcom.Wpack.SecondPass
import OpenWatcom.Wpack.Shannon
import OpenWatcom.Wpack.StringForest
import OpenWatcom.Wpack.StringTree
import OpenWatcom.Wpack.Tokens
import OpenWatcom.Wpack.Unpack
import OpenWatcom.X64Obj.DataImage
import OpenWatcom.X64Obj.Elf
import OpenWatcom.X64Obj.ElfConsistent
import OpenWatcom.X64Obj.ElfSpec
import OpenWatcom.X64Obj.Externals
import OpenWatcom.X64Obj.FixupSites
import OpenWatcom.X64Obj.Fixupp
import OpenWatcom.X64Obj.FixuppRead
import OpenWatcom.X64Obj.InsnLen
import OpenWatcom.X64Obj.InsnLenSpec
import OpenWatcom.X64Obj.Omf
import OpenWatcom.X64Obj.OmfFormat
import OpenWatcom.X64Obj.OmfInv
import OpenWatcom.X64Obj.OmfRecords
import OpenWatcom.X64Obj.Pass2
import OpenWatcom.X64Obj.Pass2Spec
import OpenWatcom.X64Obj.Publics
import OpenWatcom.X64Obj.Retarget
import OpenWatcom.X64Obj.Rewritten
import OpenWatcom.X64Obj.RewrittenConv
import OpenWatcom.X64Obj.RipAddend
import OpenWatcom.X64Obj.TextGrowth
import OpenWatcom.X64Obj.Window
import OpenWatcom.Yacc.Automaton
import OpenWatcom.Yacc.Conflict
import OpenWatcom.Yacc.FastDecode
import OpenWatcom.Yacc.FastParser
import OpenWatcom.Yacc.FastTables
