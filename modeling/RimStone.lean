import RimStone.Laws.Memory.Partition
import RimStone.Laws.Tree.Compare
import RimStone.Laws.Tree.Statements
import RimStone.Laws.Tree.Cursor
import RimStone.Laws.Hash.Map
import RimStone.Laws.Hash.Traversal
import RimStone.Laws.Hash.Statements
import RimStone.Laws.Message.Bounds
import RimStone.Laws.Message.RoundTrip
import RimStone.Laws.Client.Read
import RimStone.Laws.Json.Documents
import RimStone.Laws.Json.Written
import RimStone.Laws.LinkedList.Run
import RimStone.Laws.Database.Session
import RimStone.Laws.Text.Literals
import RimStone.Laws.Exec.Program
import RimStone.Laws.Manager.Command
import RimStone.Laws.Source.Comments
import RimStone.Laws.Request.Params
import RimStone.Laws.Request.Body
import RimStone.Laws.Request.Output
import RimStone.Laws.Manager.Workers
import RimStone.Laws.Text.Number
import RimStone.Laws.Text.DecodeUrl
import RimStone.Laws.Text.UtfBounds
import RimStone.Laws.Client.Payload
import RimStone.Laws.Text.BreakDown
import RimStone.Laws.Database.Select
import RimStone.Laws.Memory.References
import RimStone.Laws.Text.Alter
import RimStone.Laws.Text.Compare
import RimStone.Laws.Manager.Tokarg
import RimStone.Laws.Array.Run
import RimStone.Laws.Source.Lexical
import RimStone.Laws.Json.Apart
import RimStone.Laws.Text.Base64
import RimStone.Laws.Text.Search
import RimStone.Laws.Text.Substring
import RimStone.Laws.Source.Format
import RimStone.Laws.Source.Constant
import RimStone.Laws.Fifo.Lifo
import RimStone.Laws.Text.Scan
import RimStone.Laws.Exec.Child
import RimStone.Laws.File.Read
import RimStone.Laws.Source.Loop
import RimStone.Laws.Source.Once
import RimStone.Laws.Time.Time
import RimStone.Laws.Sec.Crypt
import RimStone.Laws.Source.Dispatch
import RimStone.Laws.Source.Scope
import RimStone.Laws.Request.Path
import RimStone.Laws.Database.Transaction
import RimStone.Laws.Database.MakeSql
