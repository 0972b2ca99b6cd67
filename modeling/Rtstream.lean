import Rtstream.JitterBufferOrder
import Rtstream.UdpReassembly
import Rtstream.UdpStragglers
import Rtstream.UdpCleanLink
import Rtstream.UdpGiveUp
import Rtstream.RtpRoundTrip
import Rtstream.RtpSequence
import Rtstream.RtpOutputOnce
import Rtstream.RtpIntegrity
import Rtstream.RtpSingleLoss
import Rtstream.NackExchange
import Rtstream.ThreadSafeQueue
import Rtstream.HttpServer
import Rtstream.WsDelivery
import Rtstream.WsOutput
import Rtstream.TcpRoundTrip
import Rtstream.ControlPort
import Rtstream.FecKeys
import Rtstream.RtpInRange
import Rtstream.JitterBufferLoss
import Rtstream.RtpHoles
import Rtstream.RtpLoss
import Rtstream.TcpServer
import Rtstream.LossSimulator
import Rtstream.JitterBufferUnits
import Rtstream.JitterBufferCapacity
import Rtstream.JitterBufferNack
import Rtstream.JitterBufferWait
import Rtstream.JitterBufferIdle
import Rtstream.UdpMalformed
import Rtstream.TimestampRuns
import Rtstream.WsFrameLengths
import Rtstream.Packetisers
import Rtstream.RtpSenderStream
import Rtstream.LossOrder
import Rtstream.RtpFecStore
import Rtstream.RtpZombies
import Rtstream.Base64Encode
import Rtstream.FecIndex
import Rtstream.RtpStartCodes
import Rtstream.Metrics
import Rtstream.RemoteMetrics
import Rtstream.LinkOverflow
import Rtstream.TestSource
import Rtstream.WebPreviewer
import Rtstream.UdpNackRound
import Rtstream.TcpLink
import Rtstream.CameraLink
import Rtstream.WebBrowsers
import Rtstream.WsAnswers
import Rtstream.CameraScreen
