import R8000Plus.Effects.Prog
import R8000Plus.Effects.Runs
import R8000Plus.Effects.Cells
import R8000Plus.Effects.Protocol
import R8000Plus.Effects.Pool
import R8000Plus.Fa.Rows
import R8000Plus.Fa.FlowRule
import R8000Plus.Fa.Slots
import R8000Plus.Fa.Device
import R8000Plus.Fa.MemAccess
import R8000Plus.Fa.Callbacks
import R8000Plus.Fa.OrphanRows
import R8000Plus.Fa.Codec
import R8000Plus.Fa.Durable
import R8000Plus.Fa.VerifyGate
import R8000Plus.Fa.Performs
import R8000Plus.Fa.SlotMap
import R8000Plus.Fa.NextHops
import R8000Plus.Fa.Lifecycle
import R8000Plus.Fa.Traced
import R8000Plus.Fa.StaleRows
import R8000Plus.Fa.Napt
import R8000Plus.Fa.Threads
import R8000Plus.Fa.Ownership
import R8000Plus.Fa.Window
import R8000Plus.Radio.Watchdog
import R8000Plus.Radio.Escalation
import R8000Plus.Radio.Echo
import R8000Plus.Srab.Bus
import R8000Plus.Srab.Grant
import R8000Plus.Srab.Persist
import R8000Plus.Effects.LastSet
import R8000Plus.Fa.HeaderBits
import R8000Plus.Fa.NextHopMac
import R8000Plus.Fa.Acceptance
import R8000Plus.Radio.Cursor
import R8000Plus.Radio.Antenna
import R8000Plus.Uplink.Hotplug
import R8000Plus.Uplink.Sqm
import R8000Plus.Uplink.Multipath
import R8000Plus.Fa.NhCodec
import R8000Plus.Fa.NarrowRows
import R8000Plus.Effects.FreeList
import R8000Plus.Effects.Chained
import R8000Plus.Effects.Crc
import R8000Plus.Vendor.FlowKey
import R8000Plus.Vendor.RowAccess
import R8000Plus.Vendor.FlowCache
import R8000Plus.Effects.Interning
import R8000Plus.Vendor.CacheRuns
import R8000Plus.Vendor.HopPool
import R8000Plus.Vendor.RowView
import R8000Plus.Vendor.HopRuns
import R8000Plus.Vendor.PoolTable
import R8000Plus.Vendor.FlowMap
import R8000Plus.Vendor.FlowRuns
import R8000Plus.Vendor.Forwarding
import R8000Plus.Effects.Choices
import R8000Plus.Vendor.Registers
import R8000Plus.Vendor.RegisterRuns
import R8000Plus.Vendor.Refinement
import R8000Plus.Vendor.OnRegisters
import R8000Plus.Vendor.War777
import R8000Plus.Fa.Delivery
import R8000Plus.Srab.Mainline
import R8000Plus.Srab.MainlineCalls
import R8000Plus.Srab.MainlineRuns
import R8000Plus.Uplink.DnsRoute
import R8000Plus.Radio.Repeater
import R8000Plus.Radio.RepeaterCallers
