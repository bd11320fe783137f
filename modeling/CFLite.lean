import CFLite.BinaryPlist.LookupAgrees
import CFLite.BinaryPlist.SizedIntegers
import CFLite.Base.IntegerConversion
import CFLite.Base.IntegerPrinting
import CFLite.Base.NumberComparison
import CFLite.Collections.BitVectorEquality
import CFLite.Collections.BitExtraction
import CFLite.Collections.HeapEquality
import CFLite.Date.Gregorian
import CFLite.Storage.FamilyCounts
import CFLite.Collections.ArrayGrowth
import CFLite.Collections.ArraySearch
import CFLite.Collections.BasicHashEnumeration
import CFLite.Collections.BasicHashEquality
import CFLite.Collections.BasicHashCycles
import CFLite.Collections.BasicHashNumbers
import CFLite.Sorting.ConcurrentPhases
import CFLite.PropertyList.ObjectGraph
import CFLite.TextPlist.OldStyle
import CFLite.TextPlist.Results
import CFLite.TextPlist.Integers
import CFLite.TextPlist.Base64
import CFLite.TextPlist.Dates
import CFLite.Strings.EqualityAndHash
import CFLite.Strings.Joining
import CFLite.Strings.UTF8Conversion
import CFLite.Strings.EncodingRoundTrip
import CFLite.Strings.SearchRuns
import CFLite.Strings.LineBounds
import CFLite.Strings.CharacterSearch
import CFLite.Strings.UTF32
import CFLite.Strings.Pad
import CFLite.Strings.CaseMapping
import CFLite.Strings.Decompositions
import CFLite.Strings.CompatibilityDecomposition
import CFLite.Strings.PrioritySort
import CFLite.Strings.Decompose
import CFLite.Strings.DecomposeText
import CFLite.Strings.DecomposeRuns
import CFLite.Strings.DecomposeExact
import CFLite.Strings.NonLossyASCII
import CFLite.Strings.Comparison
import CFLite.Collections.TreeRuns
import CFLite.Collections.DataCapacity
import CFLite.Collections.DataSearch
import CFLite.Date.TimeZonePeriods
import CFLite.Date.TimeZoneLookup
import CFLite.Date.Weeks
import CFLite.Date.Units
import CFLite.RunLoop.TimerRuns
import CFLite.RunLoop.Rescheduling
import CFLite.TextPlist.AppendCharacters
import CFLite.Strings.Scanner
import CFLite.URL.ComponentBytes
import CFLite.PropertyList.DeepCopy
import CFLite.URL.Encodings
import CFLite.RunLoop.BlockRuns
