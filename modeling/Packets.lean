import Packets.Bgp.FsmConnection
import Packets.Bgp.CommitSettings
import Packets.Bgp.Interning
import Packets.Policy.LiveStoreRuns
import Packets.Bgp.MaximumPrefix
import Packets.Bgp.OriginatedPaths
import Packets.Api.Serial
import Packets.Bgp.ListenersFollow
import Packets.Netflow.Scopes
import Packets.Bgp.Explain
import Packets.Rib.Believed
import Packets.Rib.TrieTidy
import Packets.Rib.Paging
import Packets.Policy.PrefixScan
import Packets.Bgp.UpdateGroup
import Packets.Rib.Generation
import Packets.Bgp.Framing
import Packets.Bgp.ExternalPath
import Packets.Bgp.PolicyEdits
import Packets.Bgp.OpenOffsets
import Packets.Bgp.MixedUpdates
import Packets.Engine.EventBus
import Packets.Inet.SharedKeywords
import Packets.Config.Deletion
import Packets.Engine.SelectTask
import Packets.Rib.Reoffers
import Packets.Rib.Handover
import Packets.Policy.RetypedClauses
import Packets.Inet.HeaderLayers
import Packets.Query.Rows
import Packets.Query.Extracted
import Packets.Inet.Nesting
import Packets.Inet.LsaWalks
import Packets.Inet.GroupPackets
import Packets.Protos.Dhcp
import Packets.Transport.TtlFloor
import Packets.Protos.DnsUnderstood
import Packets.Netflow.DataSets
import Packets.Netflow.PlanCache
import Packets.Inet.Checksum
import Packets.Bgp.WirePrimitives
import Packets.Api.Bridge
import Packets.Api.CurrentAuth
import Packets.Fib.RouteMessages
import Packets.Bgp.FsmReports
import Packets.Bgp.Speakers
