import Cafe.Suppression
import Cafe.Geocast
import Cafe.Flood
import Cafe.MultiEntry
import Cafe.MiraPartition
import Cafe.SafeRouting
import Cafe.Uplink
import Cafe.Recency
import Cafe.Subscription
import Cafe.Reassembly
import Cafe.WiredSide
import Cafe.NearestRsu
import Cafe.ZorBuilding
import Cafe.AlertStoreLru
import Cafe.Contention
import Cafe.FaceContexts
import Cafe.StackUpdate
import Cafe.Oversize
import Cafe.StoppedConsumer
import Cafe.Scene
import Cafe.AlertLog
import Cafe.AlertMetrics
import Cafe.UndeliveredAlerts
import Cafe.BoundaryDistance
import Cafe.MiraOrder
import Cafe.NeighborScope
import Cafe.Readmission
import Cafe.Settling
import Cafe.DataPacket
import Cafe.ProducerNames
import Cafe.HelloService
import Cafe.AirInterface
import Cafe.RsuPlacement
import Cafe.BuiltBackbone
import Cafe.Crossroads
import Cafe.RoutingOrder
import Cafe.InstallOrder
import Cafe.Uri
import Cafe.LoggedNames
import Cafe.LogLines
import Cafe.LogReading
