import HyperDerp.Audit.Truth
import HyperDerp.Client.Frames
import HyperDerp.Config.Crash
import HyperDerp.Config.Undo
import HyperDerp.ControlPlane.Consent
import HyperDerp.ControlPlane.Forged
import HyperDerp.ControlPlane.Offers
import HyperDerp.ControlPlane.Outcomes
import HyperDerp.ControlPlane.PipeFraming
import HyperDerp.ControlPlane.Recipients
import HyperDerp.ControlPlane.Watchers
import HyperDerp.DataPlane.CmdProducers
import HyperDerp.DataPlane.DirectWrites
import HyperDerp.DataPlane.FrameReturns
import HyperDerp.DataPlane.FwdRules
import HyperDerp.DataPlane.RouteReplicas
import HyperDerp.DataPlane.RuleFanout
import HyperDerp.DataPlane.SendOwners
import HyperDerp.DataPlane.Wakeup
import HyperDerp.DataPlane.XferWake
import HyperDerp.Enrolment.Admission
import HyperDerp.Enrolment.Revoked
import HyperDerp.Fleet.Base64
import HyperDerp.Fleet.SelfRevocation
import HyperDerp.HdPeers.Closes
import HyperDerp.HdPeers.Federation
import HyperDerp.HdPeers.RuleScan
import HyperDerp.HdPeers.SavedFiles
import HyperDerp.Ice.Sessions
import HyperDerp.Routes.Announcement
import HyperDerp.Routes.LoopFree
import HyperDerp.Routes.RelayMap
import HyperDerp.Sdk.BridgePump
import HyperDerp.Sdk.Dispatch
import HyperDerp.Sdk.FramePool
import HyperDerp.Stun.HeaderSum
import HyperDerp.Turn.Channels
import HyperDerp.WgDaemon.Proxy
import HyperDerp.WgRelay.Digest
import HyperDerp.WgRelay.Escalation
import HyperDerp.WgRelay.Restart
