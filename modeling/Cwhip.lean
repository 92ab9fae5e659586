import Cwhip.CodeGen.UnitsPartition
import Cwhip.Lib.Marking
import Cwhip.Lib.Machine
import Cwhip.Lib.GrowVec
import Cwhip.Lib.SharedTree
import Cwhip.Runtime.CollectSound
import Cwhip.Runtime.Lock
import Cwhip.Sqlite.Transactions
import Cwhip.Lib.Census
import Cwhip.Lib.RecordList
import Cwhip.Runtime.Synchronization
import Cwhip.Runtime.MutexSafety
import Cwhip.Runtime.ProcessWaitRun
import Cwhip.Gtk.DirectoryDelivery
import Cwhip.Runtime.ConditionWakeUps
import Cwhip.CodeGen.ReferenceOffsets
import Cwhip.Runtime.StringOpsSound
import Cwhip.Runtime.Slices
import Cwhip.Runtime.DictSlice
import Cwhip.Runtime.Reentrancy
import Cwhip.Inheritance.Classes
import Cwhip.Inheritance.Layout
import Cwhip.Inheritance.Lookup
import Cwhip.Inheritance.Access
import Cwhip.Inheritance.FieldAgreement
import Cwhip.Lang.Execution
import Cwhip.Semantic.Analyzer
import Cwhip.Lang.Assignment
import Cwhip.Semantic.DefiniteInit
import Cwhip.Packages.TreeDigest
import Cwhip.CodeGen.FinalOverrider
import Cwhip.CodeGen.SymbolsDistinct
import Cwhip.CodeGen.UpcastsAgree
import Cwhip.CodeGen.Boxing
import Cwhip.Runtime.DictRun
import Cwhip.Runtime.UnwindingRun
import Cwhip.CodeGen.Emission
import Cwhip.CodeGen.FallThrough
import Cwhip.CodeGen.BasicBlocks
import Cwhip.Runtime.ProcessAsyncRun
import Cwhip.Lib.Utf8Text
import Cwhip.Runtime.StringStore
import Cwhip.Runtime.SlicesPython
import Cwhip.Runtime.TextDecode
import Cwhip.CodeGen.NullComparison
import Cwhip.CodeGen.Overloads
import Cwhip.CodeGen.RaiseMessage
import Cwhip.CodeGen.UpcastOrder
import Cwhip.CodeGen.IntegerLiterals
import Cwhip.Lib.Fueled
import Cwhip.Semantic.ClassSearch
import Cwhip.Semantic.ClassChecks
import Cwhip.Semantic.CycleCheck
import Cwhip.Semantic.SearchesEnd
import Cwhip.Semantic.EnumValues
import Cwhip.Semantic.HierarchyChecks
import Cwhip.Lib.FirstOccurrence
import Cwhip.Packages.LinkOrder
import Cwhip.Packages.DigestWrites
import Cwhip.Runtime.FormatField
import Cwhip.Runtime.FormatFieldText
import Cwhip.Runtime.StringNumbers
import Cwhip.Lib.NumeralOrder
import Cwhip.Packages.VersionGrammar
import Cwhip.Packages.VersionOrder
import Cwhip.Packages.VersionPattern
import Cwhip.Packages.PythonVersions
import Cwhip.Lib.CheckedSort
import Cwhip.Packages.DiscoveryOrder
import Cwhip.Packages.VersionSelection
import Cwhip.Parser.FormatTemplate
import Cwhip.Parser.FormatArguments
import Cwhip.CodeGen.FormatEmission
import Cwhip.Parser.Token
import Cwhip.Parser.SourceLoader
import Cwhip.Parser.Inclusion
import Cwhip.Semantic.EnumReferences
import Cwhip.Semantic.EnumResults
import Cwhip.Semantic.EnumSolution
import Cwhip.Semantic.EnumAcceptance
import Cwhip.Parser.Lexer
import Cwhip.Parser.Utf8Validators
import Cwhip.Parser.LexerRuns
import Cwhip.Packages.Identifiers
import Cwhip.CodeGen.StringConstants
import Cwhip.Parser.InlineBodies
import Cwhip.Runtime.StringSearch
import Cwhip.Lib.BlockArray
import Cwhip.Runtime.GrowableStorageRuns
import Cwhip.Runtime.PathsSound
import Cwhip.Runtime.CancelDeadlines
import Cwhip.CodeGen.ThreadStart
import Cwhip.CodeGen.NullCollections
import Cwhip.CodeGen.CallbackTypes
import Cwhip.Driver.ShellCommand
import Cwhip.Lib.Lines
import Cwhip.CodeGen.NullUpcasts
import Cwhip.Runtime.ReadLines
import Cwhip.Driver.LinkSidecar
import Cwhip.Runtime.OutputDecoder
import Cwhip.CodeGen.BufferAssignment
import Cwhip.Lib.Colouring
import Cwhip.Packages.LockFile
import Cwhip.Packages.LockGraph
import Cwhip.Gtk.ConfigMerge
import Cwhip.CodeGen.InlineSymbols
import Cwhip.Runtime.Callbacks
import Cwhip.Runtime.Semaphores
import Cwhip.Runtime.StringStorage
import Cwhip.Runtime.WriteLines
