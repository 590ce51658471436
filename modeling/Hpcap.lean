import Hpcap.Acceptance
import Hpcap.AddListener
import Hpcap.Advance
import Hpcap.Arrivals
import Hpcap.Budget
import Hpcap.Capture
import Hpcap.Chardev
import Hpcap.Checkraw
import Hpcap.CircularBuffer
import Hpcap.Client
import Hpcap.Concurrent
import Hpcap.Consumption
import Hpcap.Containment
import Hpcap.Decoding
import Hpcap.Delivery
import Hpcap.Descriptors
import Hpcap.Device
import Hpcap.Dups
import Hpcap.Feed
import Hpcap.Files
import Hpcap.Filling
import Hpcap.Filters
import Hpcap.HugeMap
import Hpcap.Hugepages
import Hpcap.Inked
import Hpcap.Intact
import Hpcap.Ioctl
import Hpcap.Joining
import Hpcap.Killwait
import Hpcap.Latency
import Hpcap.Listeners
import Hpcap.Loops
import Hpcap.Lstop
import Hpcap.Mapping
import Hpcap.Mgmon
import Hpcap.Mlnx
import Hpcap.Mmap
import Hpcap.Online
import Hpcap.OpenFile
import Hpcap.Opening
import Hpcap.Packets
import Hpcap.Pci
import Hpcap.Poll
import Hpcap.Precheck
import Hpcap.Publication
import Hpcap.Raw2pcap
import Hpcap.Raw2tstamp
import Hpcap.Read
import Hpcap.ReadNext
import Hpcap.ReadPacket
import Hpcap.Readers
import Hpcap.Readout
import Hpcap.Recording
import Hpcap.Registration
import Hpcap.Registry
import Hpcap.Repair
import Hpcap.Reservation
import Hpcap.Reset
import Hpcap.Retry
import Hpcap.Rx
import Hpcap.RxRing
import Hpcap.SharedLog
import Hpcap.Slots
import Hpcap.Status
import Hpcap.Stdio
import Hpcap.Stream
import Hpcap.Threads
import Hpcap.Tiling
import Hpcap.Token
import Hpcap.Transition
import Hpcap.Wait
import Hpcap.Wire
import Hpcap.WriteBlock
import Hpcap.Xl710
