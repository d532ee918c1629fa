import NerwRpc.FrameCodec
import NerwRpc.RequestFlow
import NerwRpc.ScriptedFlow
import NerwRpc.AnyPeer
import NerwRpc.StreamingCall
import NerwRpc.CallCancelled
import NerwRpc.WriteFirst
import NerwRpc.UnaryEnds
import NerwRpc.ConcurrentCalls
import NerwRpc.StreamOutput
import NerwRpc.StreamingOpen
import NerwRpc.MethodEntry
import NerwRpc.OpenHandshake
import NerwRpc.ErrorPaths
import NerwRpc.LatestVersion
import NerwRpc.DatagramDelivery
import NerwRpc.AlpnDispatch
import NerwRpc.Eviction
import NerwRpc.SizeLimits
import NerwRpc.Voucher
import NerwRpc.TransitSpelling
import NerwRpc.Schema
import NerwRpc.Reference
