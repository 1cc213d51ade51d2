import MyRaft.Election
import MyRaft.Safety
import MyRaft.Clients
import MyRaft.Roles
import MyRaft.Alarms
import MyRaft.Framing
import MyRaft.Restart
import MyRaft.Commits
import MyRaft.Exceptions
import MyRaft.Stability
import MyRaft.Votes
import MyRaft.Duplicates
import MyRaft.Durability
import MyRaft.Apply
import MyRaft.Exchange
import MyRaft.Majority
import MyRaft.Config
import MyRaft.Queries
import MyRaft.Malformed
import MyRaft.Retries
import MyRaft.Pool
import MyRaft.ReadLoop
import MyRaft.Offsets
import MyRaft.Widths
import MyRaft.Linearizability
import MyRaft.Workers
import MyRaft.Growth
import MyRaft.Transport
import MyRaft.Disk
import MyRaft.CatchUp
import MyRaft.Service
import MyRaft.Silence
import MyRaft.Quiet
