import TraceDecoder.AddressChain
import TraceDecoder.BtmReplay
import TraceDecoder.CAInstruction
import TraceDecoder.CAReached
import TraceDecoder.CAReplay
import TraceDecoder.CASearch
import TraceDecoder.CTFStreams
import TraceDecoder.CallFlags
import TraceDecoder.ClientStreams
import TraceDecoder.CoreIds
import TraceDecoder.Framing
import TraceDecoder.HtmReplay
import TraceDecoder.ITCPrintAccounts
import TraceDecoder.ITCPrintFaithful
import TraceDecoder.InCircuit
import TraceDecoder.LinuxAddresses
import TraceDecoder.MappingSections
import TraceDecoder.ObjDumpOutputCut
import TraceDecoder.PerfDeltaXOR
import TraceDecoder.ProcessList
import TraceDecoder.Resets
import TraceDecoder.SelectHandover
import TraceDecoder.SocketDelivery
import TraceDecoder.StateExits
import TraceDecoder.StreamAgreement
import TraceDecoder.StreamRoundTrip
import TraceDecoder.Timestamps
import TraceDecoder.TraceTotals
import TraceDecoder.Updates
import TraceDecoder.VarFields
import TraceDecoder.CARewind
import TraceDecoder.ControlEncoding
import TraceDecoder.CoreRanges
import TraceDecoder.CountLoading
import TraceDecoder.HistoryStatistics
import TraceDecoder.ITCPrintShort
import TraceDecoder.Lib.Comparison
import TraceDecoder.Lib.Paths
import TraceDecoder.LogFlags
import TraceDecoder.LongHistories
import TraceDecoder.Oversize
import TraceDecoder.SanePath
import TraceDecoder.SectionArrays
import TraceDecoder.SectionLookup
import TraceDecoder.SimulatorFile
import TraceDecoder.SimulatorFormats
import TraceDecoder.SimulatorReplay
import TraceDecoder.SymbolOrder
import TraceDecoder.CAAlignment
import TraceDecoder.FixedFields
import TraceDecoder.Withholding
import TraceDecoder.StreamNoise
import TraceDecoder.ITCPrintChannels
import TraceDecoder.PropertiesRewind
import TraceDecoder.CTFLog
import TraceDecoder.CTFPackets
import TraceDecoder.CallProgress
import TraceDecoder.LockstepCalls
import TraceDecoder.OutputCalls
import TraceDecoder.CoreLockstep
import TraceDecoder.Isolation
import TraceDecoder.CTFClocks
import TraceDecoder.PerfOutput
import TraceDecoder.Symtab
import TraceDecoder.KMem
import TraceDecoder.SourceFixups
import TraceDecoder.ITCPrintAnnounce
import TraceDecoder.ITCUtils
import TraceDecoder.ITCUtilsDelivery
