import Teensy3.Lib.Run
import Teensy3.Lib.ByteMem
import Teensy3.Lib.SlotRing
import Teensy3.Lib.OnesComplement
import Teensy3.Lib.Scatter
import Teensy3.Enet.Descriptor
import Teensy3.Enet.RxRing
import Teensy3.Enet.RxArm
import Teensy3.Enet.TxRing
import Teensy3.Lwip.Pcb
import Teensy3.Lwip.Tcptx
import Teensy3.Lwip.ErrCallbacks
import Teensy3.Lwip.Pbuf
import Teensy3.Lwip.EchoServer
import Teensy3.Lwip.WebServer
import Teensy3.Lwip.UdpSend
import Teensy3.Raw.Checksum
import Teensy3.Raw.Sketch
import Teensy3.Raw.Udp
import Teensy3.Raw.UdpRecv
import Teensy3.Raw.UdpChecksum
import Teensy3.Raw.Arp
import Teensy3.W5200.Chip
import Teensy3.W5200.Sockets
import Teensy3.W5200.Wizpaul
import Teensy3.W5200.Dspi
import Teensy3.W5200.Ports
import Teensy3.Raw.UdpTcp
import Teensy3.Raw.UdpTcpReturns
import Teensy3.Lib.RegProgram
import Teensy3.Sdhc.Driver
import Teensy3.Sdhc.ReadErrors
import Teensy3.Sdhc.MultiSector
import Teensy3.Sdhc.Initialize
import Teensy3.Raw.InetChksum
import Teensy3.Raw.Replies
import Teensy3.Sdhc.Baudrate
import Teensy3.Lib.Crc
import Teensy3.Sketches.CrcUnit
import Teensy3.Sketches.FtmCapture
import Teensy3.Lib.Restart
import Teensy3.Sketches.EspNtp
import Teensy3.Sketches.LptmrCount
import Teensy3.Sketches.RtcMs
import Teensy3.Sketches.DacPong
import Teensy3.Sketches.UartDma
import Teensy3.Sketches.EspWait
import Teensy3.Sdhc.Divider
import Teensy3.Lib.DeltaQueue
import Teensy3.Lib.SeqNum
import Teensy3.Lwip.TcpConn
import Teensy3.Lwip.TcpSound
import Teensy3.Lwip.TcpContent
import Teensy3.Lwip.TcpDelivery
import Teensy3.Lwip.TcpWrapRun
import Teensy3.Lwip.TcpWide
import Teensy3.Lwip.TimerCycle
import Teensy3.Lwip.TimerUninit
import Teensy3.Lwip.Etharp
import Teensy3.Lwip.EtharpCache
import Teensy3.Lwip.EtharpLan
