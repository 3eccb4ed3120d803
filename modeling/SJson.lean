import SJson.Basic
import SJson.Lib.LinkedChain
import SJson.Lib.ErrState
import SJson.Lib.Window
import SJson.Lib.Bisect
import SJson.Lib.OrderedMap
import SJson.Lib.Overlay
import SJson.Lib.Segment
import SJson.Lib.Rounding
import SJson.Lib.Decimal
import SJson.Lib.RefCount
import SJson.Lib.Count
import SJson.Lib.Loops
import SJson.Lib.Requests
import SJson.Arena
import SJson.ArenaInvariant
import SJson.ArenaRun
import SJson.ArenaLife
import SJson.Memory
import SJson.Json
import SJson.Utf8
import SJson.Lexer
import SJson.LexerSpec
import SJson.StringText
import SJson.NumberText
import SJson.Decomposition
import SJson.Parser
import SJson.ParserSafety
import SJson.RefParser
import SJson.ParserRefine
import SJson.Grammar
import SJson.Sort
import SJson.SortSpec
import SJson.Lookup
import SJson.Equal
import SJson.Represent
import SJson.Api
import SJson.Frame
import SJson.ParserAppend
import SJson.LookupSpec
import SJson.ArrayList
import SJson.Comparisons
import SJson.ObjectMap
import SJson.Path
import SJson.PathSpec
import SJson.Compat
import SJson.CompatInvariant
import SJson.CompatSpec
import SJson.Entries
import SJson.Cpp
import SJson.CppInvariant
import SJson.CppCalls
import SJson.CppSpec
import SJson.Writer
import SJson.Layout
import SJson.Unfold
import SJson.WriterSpec
import SJson.WriterSafety
import SJson.Output
import SJson.SortedOutput
import SJson.CloneSpec
import SJson.Traversal
import SJson.SortCongr
import SJson.Rendering
import SJson.EqualSpec
import SJson.Equality
import SJson.ReadBack
import SJson.RoundTrip
import SJson.DepthLimit
import SJson.Truncation
import SJson.Double
import SJson.FastFloat
import SJson.FloatText
import SJson.Transitivity
import SJson.Symmetry
import SJson.Stability
import SJson.OutputText
import SJson.Fuzz
import SJson.Ffi
import SJson.FfiSpec
import SJson.Python
import SJson.PythonSpec
import SJson.PythonRun
import SJson.ArenaUse
import SJson.Replay
