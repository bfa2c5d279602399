import QuicVibe.Ack.Exactness
import QuicVibe.Crypto.Hkdf
import QuicVibe.Crypto.Fips180
import QuicVibe.Crypto.GcmBuffers
import QuicVibe.Crypto.P256.Sign
import QuicVibe.Crypto.Rsa.Pss
import QuicVibe.Crypto.Ed25519.Scalar
import QuicVibe.Crypto.Ed25519.Decode
import QuicVibe.Packet.Suites
import QuicVibe.Keys.UpdateChain
import QuicVibe.Keys.UpdateSync
import QuicVibe.Recovery.NewReno
import QuicVibe.Conn.SendGate
import QuicVibe.Conn.LoopAccounting
import QuicVibe.Conn.PtoTimer
import QuicVibe.Conn.Tracking
import QuicVibe.Conn.TxNonces
import QuicVibe.Conn.FlowCredit
import QuicVibe.Conn.Completeness
import QuicVibe.Conn.Reconnect
import QuicVibe.Pki.San
import QuicVibe.Pki.Path
import QuicVibe.Tls.TransportParams
import QuicVibe.Tls.Agreement
import QuicVibe.Http3.DynTable
import QuicVibe.Http3.Huffman
import QuicVibe.Http3.WellFormed
import QuicVibe.Loop.InitialPackets
import QuicVibe.Loop.Nonces
import QuicVibe.Loop.Replay
import QuicVibe.Loop.Streams
import QuicVibe.Http3.Response
import QuicVibe.Conn.Migration
