import Tonbo.Key
import Tonbo.Skiplist
import Tonbo.Levels
import Tonbo.Inmem.ImmutableTable
import Tonbo.Inmem.MutableTable
import Tonbo.Ondisk.SsTable
import Tonbo.Compaction.Minor
import Tonbo.Compaction.Select
import Tonbo.Compaction.Major
import Tonbo.Compaction.Compactor
import Tonbo.Compaction.BuildTables
import Tonbo.Compaction.Manifest
import Tonbo.Compaction.Logs
import Tonbo.Compaction.Flush
import Tonbo.Compaction.EditLog
import Tonbo.Compaction.Level0
import Tonbo.Record.Runtime.Arrow
import Tonbo.Record.Runtime.Array
import Tonbo.Record.Runtime.RoundTrip
