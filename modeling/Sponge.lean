import Sponge.Lib.Path
import Sponge.Lib.Endless
import Sponge.Lib.Tiling
import Sponge.Lib.Word
import Sponge.Lib.PartialStream
import Sponge.Lib.OnesComplement
import Sponge.Lib.BigEndian
import Sponge.Lib.Chunks
import Sponge.Lib.Cursor
import Sponge.ByteStream
import Sponge.ByteStreamRuns
import Sponge.WrappingIntegers
import Sponge.Segment
import Sponge.StreamReassembler
import Sponge.Reassembly
import Sponge.ReassemblerRuns
import Sponge.Rearrangement
import Sponge.TCPReceiver
import Sponge.EndedStream
import Sponge.MemoryLimit
import Sponge.AdvertisedWindow
import Sponge.NullSegment
import Sponge.RetransmissionTimer
import Sponge.TCPSender
import Sponge.SenderRuns
import Sponge.SenderStream
import Sponge.SenderTimer
import Sponge.RetransmissionTiming
import Sponge.Acknowledgment
import Sponge.IsnShift
import Sponge.TCPState
import Sponge.SenderPhases
import Sponge.FillWindow
import Sponge.Wire
import Sponge.EndToEnd
import Sponge.Renumbering
import Sponge.Redelivery
import Sponge.Progress
import Sponge.Channel
import Sponge.Recovery
import Sponge.Delivery
import Sponge.Stages
import Sponge.FlowControl
import Sponge.NetParser
import Sponge.InternetChecksum
import Sponge.SegmentCodec
import Sponge.HeaderCodec
import Sponge.Records
import Sponge.SegmentRoundTrip
import Sponge.Corruption
import Sponge.Datagrams
import Sponge.SystemCall
import Sponge.Buffer
import Sponge.FileDescriptor
import Sponge.Address
import Sponge.Lib.Triple
import Sponge.Lib.Shared
import Sponge.Lib.Strings
import Sponge.Socket
import Sponge.Handles
import Sponge.Webget
import Sponge.Ostream
import Sponge.Hexdump
import Sponge.HeaderText
import Sponge.EventLoop
import Sponge.EventLoopRuns
