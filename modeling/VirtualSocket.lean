import VirtualSocket.Malformed
import VirtualSocket.Isolation
import VirtualSocket.Handshake
import VirtualSocket.ControlChannel
import VirtualSocket.Owed
import VirtualSocket.Unregister
import VirtualSocket.HalfClose
import VirtualSocket.EndToEnd
import VirtualSocket.Messages
import VirtualSocket.Accounting
import VirtualSocket.Release
import VirtualSocket.Vanishing
import VirtualSocket.Replies
import VirtualSocket.Config
import VirtualSocket.Offers
import VirtualSocket.Capacity
import VirtualSocket.Forwarding
import VirtualSocket.Progress
import VirtualSocket.RelayEnds
import VirtualSocket.Availability
import VirtualSocket.Setup
import VirtualSocket.Reaper
import VirtualSocket.Spelling
import VirtualSocket.Json.Numbers
import VirtualSocket.AcceptLoop
