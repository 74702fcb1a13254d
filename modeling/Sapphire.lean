import Sapphire.Maps
import Sapphire.Replay
import Sapphire.Sim
import Sapphire.Session
import Sapphire.Signing
import Sapphire.Frost
import Sapphire.Chain
import Sapphire.ChainSteps
import Sapphire.ChainInv
import Sapphire.Ideal
import Sapphire.Signature
import Sapphire.Selection
import Sapphire.Diamond
import Sapphire.Monotone
import Sapphire.Representation
import Sapphire.CeremonyOrder
import Sapphire.Bootstrap
import Sapphire.Progress
import Sapphire.Node
import Sapphire.NodeSteps
import Sapphire.Nonces
import Sapphire.Parties
import Sapphire.Hex
import Sapphire.Escrow
import Sapphire.EscrowGate
import Sapphire.Release
import Sapphire.Dkg
import Sapphire.DkgSteps
import Sapphire.Transcript
import Sapphire.Accountability
import Sapphire.Ceremony
import Sapphire.Unanimity
import Sapphire.DkgSim
import Sapphire.DkgLive
import Sapphire.Keygen
import Sapphire.Framing
import Sapphire.Mesh
import Sapphire.Delivery
import Sapphire.Gaps
import Sapphire.Codec
import Sapphire.Blocks
import Sapphire.Envelope
import Sapphire.Panics
import Sapphire.Attribution
import Sapphire.EscrowBinding
import Sapphire.SingleUse
import Sapphire.Atomicity
import Sapphire.OpenRequests
import Sapphire.OpenSession
import Sapphire.Pczt
import Sapphire.Topology
import Sapphire.Impersonation
import Sapphire.Serde
import Sapphire.Persistence
import Sapphire.View
import Sapphire.SigningTrack
import Sapphire.SigningLive
import Sapphire.Handshake
import Sapphire.Handover
import Sapphire.Standoff
import Sapphire.Lifecycle
import Sapphire.Confluence
import Sapphire.Gossip
import Sapphire.Rounds
import Sapphire.Network
import Sapphire.Forks
import Sapphire.Wire
