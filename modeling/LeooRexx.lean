import LeooRexx.Classes.Base64Decoding
import LeooRexx.Classes.DataType
import LeooRexx.Classes.DecimalConversionRuns
import LeooRexx.Classes.LooseComparison
import LeooRexx.Classes.MutableBufferContents
import LeooRexx.Classes.MutableBufferRuns
import LeooRexx.Classes.RexxArrayExpansion
import LeooRexx.Classes.RexxArrayRuns
import LeooRexx.Classes.RexxArraySorted
import LeooRexx.Classes.RexxClassMethodsRuns
import LeooRexx.Classes.RexxClassRuns
import LeooRexx.Classes.RexxDirectoryViews
import LeooRexx.Classes.RexxIntegerPaths
import LeooRexx.Classes.RexxListInsertion
import LeooRexx.Classes.RexxListRuns
import LeooRexx.Classes.RexxSaveStack
import LeooRexx.Classes.RexxStemRuns
import LeooRexx.Classes.StemSort
import LeooRexx.Classes.StringSearch
import LeooRexx.Classes.StringSymbolAgreement
import LeooRexx.Classes.StringWordPhrases
import LeooRexx.Instructions.ParseTargetRuns
import LeooRexx.Instructions.ParseTrigger
import LeooRexx.NumberString.Compare
import LeooRexx.NumberString.Int64Value
import LeooRexx.NumberString.LongValue
import LeooRexx.NumberString.MaxMin
import LeooRexx.NumberString.Multiply
import LeooRexx.NumberString.PowerResult
import LeooRexx.NumberString.Quotient
import LeooRexx.NumberString.StringValue
import LeooRexx.NumberString.Truncation
import LeooRexx.Parser.ArgumentListRuns
import LeooRexx.Parser.ClassDependencies
import LeooRexx.Parser.ExpressionProgress
import LeooRexx.Parser.LiteralAgreement
import LeooRexx.Parser.SourceExtraction
import LeooRexx.Parser.SourceTokens
import LeooRexx.Rexutils.SysStemCopies
import LeooRexx.RexxClasses.CircularQueue
import LeooRexx.RexxClasses.DateTimeArithmetic
import LeooRexx.RexxClasses.DateTimeOrder
import LeooRexx.Rexxapi.MacroSpaceFile
import LeooRexx.Rexxapi.SubcommandRuns
import LeooRexx.Runtime.CompoundTableBalance
import LeooRexx.Runtime.CompoundTableRuns
import LeooRexx.Runtime.HashTableFree
import LeooRexx.Runtime.HashTableOrder
import LeooRexx.Runtime.HashTableRuns
import LeooRexx.Runtime.MarkObjectsRuns
import LeooRexx.Runtime.MemorySegmentLookaside
import LeooRexx.Runtime.MemorySegmentPools
import LeooRexx.Runtime.MemorySegmentRuns
import LeooRexx.Runtime.RexxActivationStackRuns
import LeooRexx.Runtime.RexxCompoundTailRuns
import LeooRexx.Runtime.RexxDateTimeAccept
import LeooRexx.Runtime.RexxDateTimeBase
import LeooRexx.Runtime.RexxDateTimeParse
import LeooRexx.Runtime.RexxLocalVariablesRuns
import LeooRexx.Runtime.RexxVariableDictionaryRuns
import LeooRexx.Runtime.TrapQueuesRuns
import LeooRexx.Rxregexp.MatchRuns
import LeooRexx.Rxregexp.RegExpPos
import LeooRexx.Rxregexp.SetCharacters
import LeooRexx.Rxregexp.SetDefinition
import LeooRexx.StreamLibrary.FixedRecords
import LeooRexx.StreamLibrary.VariableLines
import LeooRexx.NumberString.ComparisonOrder
