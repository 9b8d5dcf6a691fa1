import TdxHq.Library.LittleEndian
import TdxHq.ByteBuffer
import TdxHq.Library.Runs
import TdxHq.Library.SortedMap
import TdxHq.Serialize
import TdxHq.Connection
import TdxHq.Slots
import TdxHq.Price
import TdxHq.Volume
import TdxHq.Bars
import TdxHq.Request
import TdxHq.SecurityBars
import TdxHq.Session
import TdxHq.Quotation
import TdxHq.Queue
import TdxHq.Dialog
import TdxHq.Rows
import TdxHq.Reception
import TdxHq.Outcome
import TdxHq.Replace
import TdxHq.Contracts
import TdxHq.Refresh
import TdxHq.Cycle
import TdxHq.Workers
import TdxHq.Program
import TdxHq.Varint
import TdxHq.Library.Refines
import TdxHq.Redis.Channel
import TdxHq.Redis.Client
import TdxHq.Redis.Command
import TdxHq.Redis.Methods
import TdxHq.Redis.Pipeline
import TdxHq.Redis.Reply
import TdxHq.Redis.Select
import TdxHq.Redis.Store
