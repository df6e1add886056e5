import PjhJson.Ast
import PjhJson.CodePoints
import PjhJson.ConstJson
import PjhJson.ConstJsonDump
import PjhJson.ConstJsonRuntime
import PjhJson.ContractCopy
import PjhJson.DoubleRounding
import PjhJson.DuplicateKeys
import PjhJson.Escape
import PjhJson.EscapeText
import PjhJson.FirstFailure
import PjhJson.GatedReading
import PjhJson.GrammarComplete
import PjhJson.GrammarSound
import PjhJson.HexNumber
import PjhJson.IndexCapacity
import PjhJson.IndexReaders
import PjhJson.Json5Complete
import PjhJson.Json5Document
import PjhJson.Json5Extension
import PjhJson.Json5Grammar
import PjhJson.Json5Layout
import PjhJson.Json5Names
import PjhJson.Json5Numbers
import PjhJson.Json5Respell
import PjhJson.Json5Sound
import PjhJson.Json5Spellings
import PjhJson.Json5Strings
import PjhJson.Json5Tokens
import PjhJson.Json5Trivia
import PjhJson.JsonlLines
import PjhJson.JsonlReader
import PjhJson.JsonlWriter
import PjhJson.LibCalls
import PjhJson.LibCheck
import PjhJson.LibExcept
import PjhJson.LibFloat
import PjhJson.LibFrame
import PjhJson.LibGrid
import PjhJson.LibMask
import PjhJson.LibMembers
import PjhJson.LibMemory
import PjhJson.LibNesting
import PjhJson.LibOrder
import PjhJson.LibPositional
import PjhJson.LibProbe
import PjhJson.LibProg
import PjhJson.LibRecord
import PjhJson.LibScanner
import PjhJson.LibSearch
import PjhJson.LibSpelling
import PjhJson.LibUpdate
import PjhJson.LibUtf8
import PjhJson.LineOnward
import PjhJson.LineReading
import PjhJson.MergePatch
import PjhJson.MergePatchLaws
import PjhJson.Node
import PjhJson.NodeEqual
import PjhJson.NodeHash
import PjhJson.NodeLaws
import PjhJson.NodeOrder
import PjhJson.NodeTree
import PjhJson.Number
import PjhJson.NumberClass
import PjhJson.NumberToken
import PjhJson.NumberValue
import PjhJson.NumberWindow
import PjhJson.ObjectIndex
import PjhJson.ObjectLimit
import PjhJson.ObjectMerge
import PjhJson.ObjectOps
import PjhJson.OutFrame
import PjhJson.ParserEntry
import PjhJson.ParserKeyIndex
import PjhJson.ParserState
import PjhJson.ParserText
import PjhJson.ParserValue
import PjhJson.Patch
import PjhJson.PatchSafe
import PjhJson.PathSyntax
import PjhJson.PathWalk
import PjhJson.PointerText
import PjhJson.Prettify
import PjhJson.Reading
import PjhJson.ReadingClear
import PjhJson.ReadingTotal
import PjhJson.ReadingValue
import PjhJson.RefineEntry
import PjhJson.RefineKeyIndex
import PjhJson.RefineLines
import PjhJson.RefineState
import PjhJson.RefineStream
import PjhJson.RefineStreamTokens
import PjhJson.RefineString
import PjhJson.RefineText
import PjhJson.RefineValue
import PjhJson.Rfc
import PjhJson.RfcNesting
import PjhJson.Schema
import PjhJson.SchemaBounds
import PjhJson.SchemaOrder
import PjhJson.SchemaSpec
import PjhJson.SchemaVerdict
import PjhJson.Stream
import PjhJson.StreamChunks
import PjhJson.StreamDom
import PjhJson.StreamEvents
import PjhJson.StreamFilter
import PjhJson.StreamHistory
import PjhJson.StreamParse
import PjhJson.StreamPointer
import PjhJson.StreamPull
import PjhJson.StreamQuotes
import PjhJson.StreamRuns
import PjhJson.StreamStrings
import PjhJson.StrictUtf8
import PjhJson.StringContents
import PjhJson.StringGrammar
import PjhJson.StringScalar
import PjhJson.Trivia
import PjhJson.Unicode
import PjhJson.UnicodeTables
import PjhJson.Utf8Gate
import PjhJson.Validate
import PjhJson.ValueAhead
import PjhJson.WriterAscii
import PjhJson.WriterCanonical
import PjhJson.WriterLimits
import PjhJson.WriterNumber
import PjhJson.WriterRoundTrip
import PjhJson.WriterString
import PjhJson.WriterText
import PjhJson.WriterValue
