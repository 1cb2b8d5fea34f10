import SynCord.Reach
import SynCord.Ledger
import SynCord.Bravo.Machine
import SynCord.Bravo.Step
import SynCord.Bravo.Slots
import SynCord.Bravo.Exclusion
import SynCord.Bravo.Refine
import SynCord.Bravo.Drain
import SynCord.Bravo.Pairing
import SynCord.Bravo.Removal
import SynCord.Bravo.Downgrade
import SynCord.Shadow
import SynCord.Slots.Callbacks
import SynCord.Slots.Install
import SynCord.Slots.System
import SynCord.Slots.Stack
import SynCord.Slots.Ownership
import SynCord.Slots.Records
import SynCord.Slots.CallSites
import SynCord.Slots.References
import SynCord.Scl.Machine
import SynCord.Scl.Account
import SynCord.Scl.FairShare
import SynCord.Scl.Debt
import SynCord.Scl.Grouping
import SynCord.Rename
import SynCord.Writes
import SynCord.Text
import SynCord.Trace
import SynCord.RwLock
import SynCord.Loop
import SynCord.CText
import SynCord.Bpf.Generate
import SynCord.Bpf.Load
import SynCord.Bpf.Checker
import SynCord.Bpf.Passes
import SynCord.Bpf.Compile
import SynCord.Bpf.Pin
import SynCord.Bpf.Resolve
import SynCord.Bpf.Link
import SynCord.Bpf.Submit
import SynCord.Strings
import SynCord.Template
import SynCord.Regex
import SynCord.Concord.Fill
import SynCord.Concord.ReadApi
import SynCord.Concord.Tree
import SynCord.Concord.Collect
import SynCord.Concord.Check
import SynCord.Concord.Exit
import SynCord.Concord.Deploy
import SynCord.Descent
import SynCord.Dmon.Content
import SynCord.Dmon.Search
import SynCord.Dmon.Graph
import SynCord.Dmon.Contend
import SynCord.Dmon.Body
import SynCord.Dmon.Locking
import SynCord.Dmon.Macro
import SynCord.Dmon.Actuals
import SynCord.Dmon.Depth
import SynCord.Dmon.Order
import SynCord.Flow
import SynCord.Lock1
import SynCord.BoundedMap
import SynCord.Access
import SynCord.Lockstat.Machine
import SynCord.Lockstat.Counts
import SynCord.Lockstat.Consistent
import SynCord.Lockstat.Extremes
import SynCord.Lockstat.Report
import SynCord.Lockstat.Summary
import SynCord.Lockstat.Fine
import SynCord.Double
import SynCord.XDir.Benchmark
import SynCord.XDir.Plot
import SynCord.XDir.Tasks
import SynCord.XDir.Experiment
