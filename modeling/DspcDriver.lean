import DspcDriver.Lib.Sys
import DspcDriver.Lib.Run
import DspcDriver.Lib.Trace
import DspcDriver.Lib.Stores
import DspcDriver.Lib.Handshake
import DspcDriver.Lib.Ledger
import DspcDriver.Lib.Scan
import DspcDriver.Lib.Crc
import DspcDriver.Lib.Period
import DspcDriver.Lib.Aligned
import DspcDriver.Regs
import DspcDriver.Common
import DspcDriver.Polls
import DspcDriver.Crc
import DspcDriver.Detect
import DspcDriver.Upload.Code
import DspcDriver.Upload.Table
import DspcDriver.Upload.Run
import DspcDriver.Upload.Framing
import DspcDriver.Upload.Parser
import DspcDriver.Upload.Decode
import DspcDriver.Pcie
import DspcDriver.Upload.Blocks
import DspcDriver.Upload.Image
import DspcDriver.Upload.Refusal
import DspcDriver.Upload.Whole
import DspcDriver.Upload.Bounds
import DspcDriver.Upload.Cores
import DspcDriver.Zone
import DspcDriver.Outbound
import DspcDriver.Boot.Code
import DspcDriver.Boot.FailStop
import DspcDriver.Boot.PushCode
import DspcDriver.Boot.Completion
import DspcDriver.Boot.Timeout
import DspcDriver.Boot.Overwrite
import DspcDriver.Link.Code
import DspcDriver.Link.Transfer
import DspcDriver.Link.Layout
import DspcDriver.Link.Duplex
import DspcDriver.Link.Schedule
import DspcDriver.Link.Exact
import DspcDriver.Link.Completion
import DspcDriver.Link.OnePass
import DspcDriver.Link.Writers
import DspcDriver.Entry.Code
import DspcDriver.Entry.Events
import DspcDriver.Entry.Balance
import DspcDriver.Entry.Discovery
import DspcDriver.Entry.Bars
import DspcDriver.Entry.Load
import DspcDriver.Entry.Order
import DspcDriver.File.Code
import DspcDriver.File.Chip
import DspcDriver.File.Wait
import DspcDriver.File.Wakeup
import DspcDriver.File.Close
import DspcDriver.File.Mmap
import DspcDriver.Entry.Interrupt
import DspcDriver.Entry.Visible
import DspcDriver.Entry.Tables
import DspcDriver.Lifecycle
