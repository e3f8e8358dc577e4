import BinTools.GnuHashAbsent
import BinTools.HeapBitmapSpec
import BinTools.HeapAlloc
import BinTools.HeapRecords
import BinTools.HeapDisjoint
import BinTools.PointerList
import BinTools.GuardedRun
import BinTools.CoffImportStubs
import BinTools.ElfObject
import BinTools.ElfSections
import BinTools.ElfRelocChain
import BinTools.ConsecutiveRanges
import BinTools.ElfPlacement
import BinTools.ElfDynamic
import BinTools.ElfExport
import BinTools.ElfImport
import BinTools.ElfResolve
import BinTools.GnuHashSingle
import BinTools.ElfInputSymbols
import BinTools.ElfObjectExports
import BinTools.ElfLocalBinding
import BinTools.ElfDynamicValues
import BinTools.ElfGrowingTables
import BinTools.ElfStringTable
import BinTools.ChainedTable
import BinTools.ElfPltEntries
import BinTools.SectionLists
import BinTools.SectionMerging
import BinTools.ElfProgramHeaders
import BinTools.HeapFreshMemory
import BinTools.ElfHeaderWalk
import BinTools.ElfSectionIndex
import BinTools.ElfSymbolPass
import BinTools.CoffObject
import BinTools.ElfGlobalBinding
import BinTools.CoffSymbolPass
import BinTools.CoffExport
import BinTools.CoffLists
import BinTools.CoffExportTables
import BinTools.CoffExportLink
import BinTools.CoffExportAddress
import BinTools.CoffExportDirectory
import BinTools.IndexChains
import BinTools.DtHashTable
import BinTools.DtHashLookup
import BinTools.CoffLookup
import BinTools.CoffImportTables
import BinTools.CoffDictionary
import BinTools.CoffDictionaryNames
import BinTools.CoffImportDictionary
import BinTools.HashTable
import BinTools.HashTableUpdate
import BinTools.ElfLoader
import BinTools.ElfLoaderSlots
import BinTools.ElfLoaderLists
import BinTools.ElfLoaderRun
import BinTools.ElfLoaderStart
import BinTools.ElfLoaderGraph
import BinTools.GnuHashWellFormed
import BinTools.ElfLoaderReloc
import BinTools.ElfLoaderPlaces
import BinTools.MakefileParser
import BinTools.ElfTagLoop
import BinTools.TaskQueue
import BinTools.ElfPcRelative
import BinTools.GuestMemory
import BinTools.Bipatch
import BinTools.BipatchRead
import BinTools.BipatchApply
import BinTools.BipatchRun
import BinTools.BipatchOutput
import BinTools.HeapFreeEnds
import BinTools.HeapFreeLocal
import BinTools.RuleSearch
import BinTools.X86Decoder
import BinTools.X86Handlers
import BinTools.X86Encoding
import BinTools.X86Operands
import BinTools.X86Moves
import BinTools.X86Boundaries
import BinTools.X86Frame
import BinTools.X86Sweep
import BinTools.X86Agreement
import BinTools.X86Traces
import BinTools.X86History
import BinTools.ElfIndexRoundTrip
import BinTools.CoffNames
import BinTools.CoffSectionNames
import BinTools.ObjectFormat
import BinTools.CommandLine
import BinTools.CommandLineRun
import BinTools.CommandLineOperands
import BinTools.ElfTableWalk
import BinTools.ElfTableCallbacks
import BinTools.ElfAbsolute
import BinTools.ElfConstructors
import BinTools.ElfGot
import BinTools.CoffReloc
import BinTools.CoffRelocLayout
import BinTools.CoffRelocApply
import BinTools.BipatchNumbers
import BinTools.HashTableSearch
import BinTools.BipatchRecords
import BinTools.BipatchChecked
import BinTools.BipatchSafety
import BinTools.BufferContents
import BinTools.JavaConstantPool
import BinTools.JavaPoolEntry
import BinTools.JavaPoolRun
import BinTools.X86Disasm
import BinTools.X86OperandText
import BinTools.X86OperandContext
import BinTools.MakefileExpansion
import BinTools.MakefileReplacement
import BinTools.MakefileImmediate
import BinTools.MakefileRoundTrip
import BinTools.PlacedMemory
import BinTools.GuestAccess
import BinTools.PeExportLookup
import BinTools.PeImportWalk
import BinTools.PeImageMap
