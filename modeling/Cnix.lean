import Cnix.Mm.Proofs.PageStats
import Cnix.Mm.Proofs.HeapRuns
import Cnix.Net.Proofs.FragQueue
import Cnix.Net.Proofs.Reset
import Cnix.Net.Proofs.Closing
import Cnix.Net.Proofs.Window
import Cnix.Fs.Proofs.FreedZones
import Cnix.Fs.Proofs.WriteLaw
import Cnix.Fs.Proofs.Refinement
import Cnix.Fs.Proofs.Permission
import Cnix.Fs.Proofs.Dirents
import Cnix.Kernel.Proofs.Groups
import Cnix.Kernel.Proofs.Family
import Cnix.Kernel.Proofs.Exit
import Cnix.Kernel.Proofs.SignalMask
import Cnix.Kernel.Proofs.Privilege
import Cnix.Fs.Proofs.Sleepers
import Cnix.Fs.Proofs.Buffer
import Cnix.Fs.Proofs.Pipe
import Cnix.Net.Proofs.RoundTrip
import Cnix.Net.Proofs.IpInput
import Cnix.Kernel.Proofs.Ready
import Cnix.Fs.Proofs.Mounts
import Cnix.Fs.Proofs.Father
import Cnix.Fs.Proofs.Filps
import Cnix.Fs.Proofs.BitCount
import Cnix.Net.Proofs.TcpMatch
import Cnix.Net.Proofs.TcpListen
import Cnix.Net.Ports
import Cnix.Kernel.Choice
import Cnix.Kernel.Mmap
import Cnix.Kernel.Halves
import Cnix.Kernel.Proofs.MaskedCalls
import Cnix.Driver.Proofs.TtyLine
import Cnix.Driver.Proofs.Vga
import Cnix.Kernel.Proofs.Fork
