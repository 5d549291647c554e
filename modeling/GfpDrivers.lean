import GfpDrivers.Aggregate.BindPoints
import GfpDrivers.Clk.Boundaries
import GfpDrivers.Clk.Consumers
import GfpDrivers.Clk.Divider
import GfpDrivers.Clk.MuxRate
import GfpDrivers.Dma.Jumps
import GfpDrivers.Dma.Memcpy
import GfpDrivers.Hdmi.PackUnpack
import GfpDrivers.Hid.Ordering
import GfpDrivers.Hid.ReportLayout
import GfpDrivers.Hid.UsageRange
import GfpDrivers.I2c.Pec
import GfpDrivers.Input.AssignSlots
import GfpDrivers.Interconnect.Aggregates
import GfpDrivers.Interconnect.SearchResult
import GfpDrivers.Its.CmdQueue
import GfpDrivers.Its.Device
import GfpDrivers.Mailbox.Ownership
import GfpDrivers.Mailbox.Transmit
import GfpDrivers.Notifier.Call
import GfpDrivers.Nvmem.Keepout
import GfpDrivers.Nvmem.RoundTrip
import GfpDrivers.Of.MapId
import GfpDrivers.Of.NexusRefs
import GfpDrivers.Of.PropertyReaders
import GfpDrivers.Of.ResolutionEnds
import GfpDrivers.Of.Revert
import GfpDrivers.Of.SpecifierBounds
import GfpDrivers.Of.UnflattenBlock
import GfpDrivers.Pci.Honoured
import GfpDrivers.Pci.VpdAccess
import GfpDrivers.Pci.WindowFits
import GfpDrivers.Pinctrl.PinOwners
import GfpDrivers.Regulator.Balance
import GfpDrivers.Regulator.EnablePoll
import GfpDrivers.Regulator.Pickable
import GfpDrivers.Regulator.Request
import GfpDrivers.Regulator.UseCount
import GfpDrivers.Remoteproc.BootFails
import GfpDrivers.Remoteproc.CarveoutDa
import GfpDrivers.Remoteproc.Lifecycle
import GfpDrivers.Remoteproc.TableBounds
import GfpDrivers.Reset.Balanced
import GfpDrivers.ResourceTree.Adjust
import GfpDrivers.ResourceTree.Regions
import GfpDrivers.Rpmsg.Receive
import GfpDrivers.Rtc.Time
import GfpDrivers.Scsi.Sense
import GfpDrivers.Spi.HandBack
import GfpDrivers.Virtio.Kick
import GfpDrivers.Virtio.PackedKick
import GfpDrivers.Virtio.PackedSlots
import GfpDrivers.Virtio.Tokens
