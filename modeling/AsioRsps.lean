import AsioRsps.AppearanceDecoder
import AsioRsps.AppendOnly
import AsioRsps.Arrivals
import AsioRsps.BitOutput
import AsioRsps.BitRoundTrip
import AsioRsps.BitStrings
import AsioRsps.BoardRuns
import AsioRsps.Boards
import AsioRsps.BufferGrowth
import AsioRsps.ByteInput
import AsioRsps.ByteOutput
import AsioRsps.CipherStates
import AsioRsps.Clearing
import AsioRsps.Client
import AsioRsps.ClientFrames
import AsioRsps.ClientTurns
import AsioRsps.Confluence
import AsioRsps.Connection
import AsioRsps.Conversation
import AsioRsps.ConversationRuns
import AsioRsps.Exchanges
import AsioRsps.FallibleLoop
import AsioRsps.FloodControl
import AsioRsps.Footprints
import AsioRsps.FrameInterleaving
import AsioRsps.GameRuns
import AsioRsps.Ghosts
import AsioRsps.ISAACCipher
import AsioRsps.ISAACReference
import AsioRsps.KingPaths
import AsioRsps.LabelledRuns
import AsioRsps.LocalList
import AsioRsps.Lockstep
import AsioRsps.LoginForms
import AsioRsps.LoginHandler
import AsioRsps.LoginInput
import AsioRsps.LoginRequest
import AsioRsps.LoginSegmentation
import AsioRsps.LongFields
import AsioRsps.MessageStreams
import AsioRsps.MovementHandler
import AsioRsps.Ownership
import AsioRsps.PacketEffects
import AsioRsps.PacketHandling
import AsioRsps.PacketLoop
import AsioRsps.PacketStream
import AsioRsps.PathInterleaving
import AsioRsps.PlayerMessages
import AsioRsps.PlayerNames
import AsioRsps.PlayerUpdating
import AsioRsps.Population
import AsioRsps.Position
import AsioRsps.PrefixReader
import AsioRsps.Progress
import AsioRsps.RateCounts
import AsioRsps.Reachability
import AsioRsps.RegionWindow
import AsioRsps.Registration
import AsioRsps.Replica
import AsioRsps.ReplicaRuns
import AsioRsps.ReplicaTick
import AsioRsps.RouteRuns
import AsioRsps.PacketRoutes
import AsioRsps.Routes
import AsioRsps.Segmentation
import AsioRsps.Server
import AsioRsps.SessionSteps
import AsioRsps.Sessions
import AsioRsps.Sightings
import AsioRsps.Simulations
import AsioRsps.Slots
import AsioRsps.StateChanges
import AsioRsps.StreamBuffer
import AsioRsps.Tick
import AsioRsps.TickInterleaving
import AsioRsps.Tolerance
import AsioRsps.Transmission
import AsioRsps.Turns
import AsioRsps.TypedFields
import AsioRsps.UpdateDecoder
import AsioRsps.UpdateFrame
import AsioRsps.UpdateOrder
import AsioRsps.UpdateOutput
import AsioRsps.UpdateRoundTrip
import AsioRsps.VariableFrames
import AsioRsps.Views
import AsioRsps.WalkRuns
import AsioRsps.Waypoints
import AsioRsps.World
import AsioRsps.WriteOperations
import AsioRsps.WriteQueue
