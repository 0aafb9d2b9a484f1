import Crack.Cont.HashMapRefines
import Crack.Cont.Termination
import Crack.Cont.OrderedHashMapRuns
import Crack.Cont.TreeMapContents
import Crack.Cont.TreeMapIter
import Crack.Cont.TreeMapChecks
import Crack.Model.Resolution
import Crack.Model.AbstractMethods
import Crack.Builder.VTableArray
import Crack.Cont.LinkedListRuns
import Crack.Cont.DListRuns
import Crack.Lang.Compare
import Crack.Lang.ObjectHash
import Crack.Lang.ObjectsAlike
import Crack.Midi.EventReads
import Crack.Sched.EventRuns
import Crack.Http.RequestRuns
import Crack.Parser.Reachability
import Crack.Parser.ExpressionParsing
import Crack.Model.Truncation
import Crack.Model.Namespaces
import Crack.Model.OrderedTypes
import Crack.Model.ConstVarDef
import Crack.Model.GenericNames
import Crack.Model.LazyImportsCache
import Crack.Model.ModuleLoading
import Crack.Serial.Protobuf
import Crack.Net.ConnectionRuns
import Crack.Net.PollerPasses
import Crack.Http.ClientReads
import Crack.Model.ConstFlags
import Crack.Cont.PriorityQueue
import Crack.Parser.Coverage
import Crack.Parser.Numerals
import Crack.Parser.Comments
import Crack.Serial.FloatReads
import Crack.Serial.Resuming
import Crack.Enc.AltBase64
import Crack.Enc.Base64
import Crack.Enc.CsvRows
import Crack.Enc.CsvLines
import Crack.Http.Queries
import Crack.Ascii.Radix
import Crack.Io.Integers
import Crack.Ascii.Escapes
import Crack.Io.LineReader
import Crack.Io.PageBuffers
import Crack.Sched.Times
import Crack.Io.Indenter
import Crack.Regex.Subst
import Crack.Midi.Merging
import Crack.Audio.WaveFiles
import Crack.Hash.Sha256
import Crack.Hash.Sha1
import Crack.Fs.Normalize
import Crack.Cmdline.Arguments
import Crack.Enc.Json2Strings
import Crack.Cont.Matrix
import Crack.Strutil.Replace
import Crack.Algorithm.InsertionSort
import Crack.Builder.Cleanups
import Crack.Threads.Queue2
