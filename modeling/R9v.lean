import R9v.T0.Draws
import R9v.T0.Branching
import R9v.Registry.Modules
import R9v.T0.TreeBatch
import R9v.T0.Recurrent
import R9v.T0.Confluence
import R9v.T0.Windowed
import R9v.Kgen.Layout
import R9v.Sched.Stops
import R9v.Ir.Trees
import R9v.Ir.Copies
import R9v.State.Rollback
import R9v.Sched.Workspaces
import R9v.Config.Precedence
import R9v.Ir.Views
import R9v.Format.Entries
import R9v.Loader.Words
import R9v.Loader.ParseSpecial
import R9v.Template.Slice
import R9v.Template.Whitespace
import R9v.Template.Range
import R9v.T0.Streams
import R9v.T0.Masked
import R9v.T0.Greedy
import R9v.Hip.Budget
import R9v.Template.StringFilters
import R9v.Loader.Open
import R9v.T0.Rounded
import R9v.T0.KvRead
import R9v.Config.ExactSize
