import Roip.Lib.Run
import Roip.Lib.Grant
import Roip.Lib.CArray
import Roip.Lib.CString
import Roip.Lib.Numeral
import Roip.Lib.Ring
import Roip.Lib.Mailbox
import Roip.Lib.Lines
import Roip.Lib.Clock
import Roip.Adc
import Roip.Handoff
import Roip.Parser
import Roip.Scan
import Roip.Accumulator
import Roip.Chunking
import Roip.Events
import Roip.CallState
import Roip.Udp
import Roip.SpeexUdp
import Roip.Manager
import Roip.AudioDest
import Roip.Connection
import Roip.Freshness
import Roip.Switching
import Roip.Failover
import Roip.ClockShift
import Roip.Device
import Roip.Attribution
import Roip.Serial
import Roip.CommInit
import Roip.Handshake
import Roip.SerialTx
import Roip.Flash
import Roip.Pages
import Roip.Httpd
import Roip.Requests
import Roip.Login
import Roip.Authorisation
import Roip.Closing
import Roip.Configuration
import Roip.PasswordChange
import Roip.Boot
import Roip.Segments
import Roip.PasswordRule
import Roip.Fields
import Roip.Validation
import Roip.StaleNumbers
import Roip.StaleBytes
import Roip.Commit
import Roip.Cursor
import Roip.FieldLine
import Roip.IdentityBounds
import Roip.ReplyChunks
import Roip.Framing
import Roip.Callback
import Roip.Reset
import Roip.FrameBounds
import Roip.ErrorPaths
import Roip.Allocation
import Roip.AudioPath
import Roip.Checksum
import Roip.HeapRuns
import Roip.Lib.DeltaQueue
import Roip.Lib.Pieces
import Roip.Safety
import Roip.Simulation
import Roip.TcpOut
import Roip.TcpQueues
import Roip.TcpStream
import Roip.TcpChksum
import Roip.TimerRuns
