import FlyingKV.WalRoundTrip
import FlyingKV.WalAppendCrash
import FlyingKV.WalCrash
import FlyingKV.WalInitTotal
import FlyingKV.CheckpointRoundTrip
import FlyingKV.NetTransport
import FlyingKV.RpcClientTimeout
import FlyingKV.RpcClientResponse
import FlyingKV.RpcCodec
import FlyingKV.SimpleRlc
import FlyingKV.ResourcePool
import FlyingKV.ThreadPool
import FlyingKV.ReferenceCounter
import FlyingKV.NetSendQueue
import FlyingKV.ReadAnyFile
import FlyingKV.RegistryConsistency
import FlyingKV.NetAnyPeer
import FlyingKV.HandshakeAgreement
import FlyingKV.PublishedConnection
import FlyingKV.MemPoolCounter
import FlyingKV.MemPoolSurplus
import FlyingKV.SegmentNames
import FlyingKV.EventTimerTables
import FlyingKV.MiniKvKey
import FlyingKV.BlockingQueue
import FlyingKV.EventLoop
import FlyingKV.MiniKvCrash
import FlyingKV.MiniKvScanPages
