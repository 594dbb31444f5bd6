import Liberty.Compiler.InspectSimplification
import Liberty.Compiler.ManifestStringStates
import Liberty.Compiler.Position
import Liberty.Compiler.RunTimeSetRecomputation
import Liberty.Compiler.WhenItems
import Liberty.Io.PathVariables
import Liberty.Io.QuotedPrintable
import Liberty.Io.WordsOutputStream
import Liberty.Json.JsonNumberValues
import Liberty.Json.JsonStringParsing
import Liberty.Json.JsonTermination
import Liberty.Library.IntegerRanges
import Liberty.Library.Positional
import Liberty.Net.CgiForm
import Liberty.Numeric.IntegerGeneral
import Liberty.Numeric.MutableBigInteger.Conversions
import Liberty.Numeric.MutableBigInteger.DecimalRuns
import Liberty.Numeric.MutableBigInteger.GcdRuns
import Liberty.Numeric.MutableBigInteger.MultiplyIntegerRuns
import Liberty.Numeric.MutableBigInteger.ShiftRuns
import Liberty.Numeric.MutableBigInteger.SumIntegerRuns
import Liberty.Numeric.Number.DecimalText
import Liberty.Numeric.Number.ExactRuns
import Liberty.Numeric.Number.Ordering
import Liberty.Parsing.DescendingTermination
import Liberty.Parsing.PackratTermination
import Liberty.RegularExpression.Objects
import Liberty.Sequencer.LoopItem
import Liberty.Sorting.CollectionSorter
import Liberty.Sorting.SortedInsertion
import Liberty.Sorting.SortedSearch
import Liberty.Sorting.StableSort
import Liberty.Storage.AvlDictionaryReverse
import Liberty.Storage.HashedDictionaryEnumeration
import Liberty.Storage.LinkedReversal
import Liberty.Storage.PlainArrayResizing
import Liberty.Storage.PythonDictionaryTermination
import Liberty.Storage.RingArrayEquality
import Liberty.Storage.RingArraySearches
import Liberty.Storage.RingArrayUnwrap
import Liberty.Storage.StringRecyclingPool
import Liberty.Text.FixedStringHolders
import Liberty.Text.IntegerPrinting
import Liberty.Text.Interning
import Liberty.Text.Rope
import Liberty.Text.StringReplacing
import Liberty.Text.UnicodeParserPosition
import Liberty.Text.UnicodeStringInvariant
import Liberty.Text.UnicodeStringOccurrences
import Liberty.Text.Utf8Parser
import Liberty.Text.Utf8Validation
