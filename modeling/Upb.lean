import Upb.Base.Log2
import Upb.Common.Chain
import Upb.Common.ScatterChains
import Upb.Hash.Table
import Upb.Hash.TableInvariant
import Upb.Hash.TableUpdate
import Upb.Hash.TableInsert
import Upb.Hash.TableRemove
import Upb.Hash.TableIterate
import Upb.Common.MapRun
import Upb.Hash.TableGrow
import Upb.Hash.TableMap
import Upb.Hash.StrTable
import Upb.Hash.ExtTable
import Upb.Hash.IntTable
import Upb.Hash.IntTableInvariant
import Upb.Hash.FiniteMaps
import Upb.MiniTable.Field
import Upb.MiniTable.Message
import Upb.MiniDescriptor.Base92
import Upb.MiniDescriptor.Encode
import Upb.MiniDescriptor.Decode
import Upb.MiniDescriptor.Layout
import Upb.MiniDescriptor.ParseFields
import Upb.MiniDescriptor.ParsedField
import Upb.MiniDescriptor.ParseLoop
import Upb.MiniDescriptor.ParseOneofs
import Upb.MiniDescriptor.ParseMessage
import Upb.MiniDescriptor.AssignHasbits
import Upb.MiniDescriptor.AssignOffsets
import Upb.MiniDescriptor.RoundTrip
import Upb.Common.Prog
import Upb.Common.Simulation
import Upb.Wire.InputStream
import Upb.Wire.Reader
import Upb.Wire.BoundedReader
import Upb.Wire.EpsCopyInputStream
import Upb.Wire.StreamInvariant
import Upb.Wire.LazyChecks
import Upb.Message.Message
import Upb.Message.Map
import Upb.Wire.Encode
import Upb.Wire.Decode
import Upb.Wire.DecodeSim
import Upb.Wire.Progress
import Upb.Wire.Refinement
import Upb.Wire.Reads
import Upb.Wire.Grammar
import Upb.Wire.UnknownFields
import Upb.Wire.WireGrammar
import Upb.Wire.WireTypeMismatch
import Upb.Php.ClassNames
import Upb.Php.Segments
import Upb.Php.ClassNamesAgree
import Upb.Arena.Arena
import Upb.Arena.Calls
import Upb.Common.ChainFamily
import Upb.Arena.System
import Upb.Arena.Counting
import Upb.Arena.Lifetime
import Upb.Arena.Resume
import Upb.Arena.Reachable
import Upb.Arena.ConcurrentFuse
import Upb.Arena.Alone
import Upb.Arena.Ledger
import Upb.Arena.Sequential
import Upb.Php.CodedInputStream
import Upb.Php.StreamReads
import Upb.Php.GPBWire
import Upb.Php.ScalarRoundTrip
import Upb.Hash.RemoveIter
import Upb.Hash.Compact
import Upb.Common.StableSort
import Upb.Compare.UnknownFields
import Upb.Reflection.FieldLookup
import Upb.Compare.Sort
import Upb.Compare.Trees
import Upb.Compare.Build
import Upb.Compare.Result
import Upb.Wire.LongerInput
import Upb.Wire.ShiftedInput
import Upb.Wire.Rounds
import Upb.Wire.Concat
import Upb.Wire.Payload
import Upb.Wire.SubMessageRecords
import Upb.Message.Extensions
import Upb.Common.Below
import Upb.Wire.DepthMonotone
import Upb.Wire.MessageSetItems
import Upb.Wire.Numbers
import Upb.Wire.KeptRecords
import Upb.Wire.RepeatedNumbers
import Upb.Wire.PackedUnpacked
import Upb.Common.Rounds
import Upb.Promote.AuxData
import Upb.Promote.FindUnknown
import Upb.Promote.Promote
import Upb.Promote.Extension
import Upb.Promote.Termination
import Upb.Hash.Allocation
import Upb.Message.MapInsert
import Upb.Hash.CompactSizes
import Upb.Common.ByteMemory
import Upb.Message.RawMessage
import Upb.Message.OneofRuns
import Upb.Message.Array
import Upb.Message.ArrayRuns
import Upb.Common.Decides
import Upb.Compare.Messages
import Upb.Compare.SameContent
import Upb.Compare.MessageEquality
import Upb.Reflection.Unescape
import Upb.Reflection.BytesDefault
import Upb.Reflection.JsonNames
import Upb.Reflection.FileDef
import Upb.Reflection.FileDeps
import Upb.MiniTable.ExtensionRegistry
import Upb.MiniDescriptor.Scan
import Upb.MiniDescriptor.FieldNumbers
import Upb.MiniDescriptor.SlotLayout
import Upb.MiniDescriptor.Declaration
import Upb.MiniDescriptor.IdealTable
import Upb.MiniDescriptor.ExactLayout
import Upb.MiniDescriptor.LayoutFits
import Upb.MiniDescriptor.LayoutSound
import Upb.Common.DecimalText
import Upb.Common.Calendar
import Upb.Common.Arith
import Upb.Json.BoundedBuffer
import Upb.Json.EncodePrefix
import Upb.Json.Numbers
import Upb.Json.Decoder
import Upb.Json.Timestamp
import Upb.Json.TimestampDates
import Upb.Json.TimestampRoundTrip
import Upb.Common.Except
import Upb.Json.TimestampFields
import Upb.Json.TimestampAccepts
import Upb.Json.Duration
import Upb.Reflection.CheckIdent
import Upb.PhpExt.Numbers
import Upb.Wire.VarintExact
import Upb.Php.FieldMask
import Upb.Php.FieldMaskWords
import Upb.Php.FieldMaskRoundTrip
import Upb.PhpExt.RepeatedField
import Upb.Php.BcMath
import Upb.Php.Duration
import Upb.Php.Message
import Upb.Php.Serialize
import Upb.Php.UnknownFields
import Upb.Php.PassThrough
import Upb.Php.StreamTakes
import Upb.Php.WellFormed
import Upb.Php.StreamLimits
import Upb.Php.Consumption
import Upb.Php.ParseProgress
import Upb.Php.WholeInput
import Upb.Php.VarintSizes
import Upb.Php.Sizes
import Upb.Common.Base64
import Upb.Json.Base64
import Upb.Json.Base64Exact
import Upb.Common.Utf8
import Upb.Utf8.Utf8Range
import Upb.Json.Strings
import Upb.Json.StringRoundTrip
import Upb.Json.FieldMask
import Upb.Wire.RecordRuns
import Upb.Wire.EncodedNumbers
import Upb.Wire.ValueRecords
import Upb.Message.MapContents
import Upb.Wire.MapRecords
import Upb.Wire.Restorable
import Upb.Wire.EncodeParts
import Upb.Wire.RestoredFields
import Upb.Wire.RestoredMaps
import Upb.Wire.RestoredMessages
import Upb.Wire.RestoredExtensions
import Upb.Wire.RoundTrip
