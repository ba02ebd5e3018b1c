import ParepMpi.Buffered.Exact
import ParepMpi.Buffered.Throttle
import ParepMpi.Cache.Sound
import ParepMpi.Collective.Linked
import ParepMpi.Collective.Mirror
import ParepMpi.Collective.Prune
import ParepMpi.Coordinator.Episodes
import ParepMpi.Coordinator.Relay
import ParepMpi.Failure.Intercomms
import ParepMpi.Framing.Decoding
import ParepMpi.Groups.Failover
import ParepMpi.Groups.Registered
import ParepMpi.Interpose.Owners
import ParepMpi.Io.Failover
import ParepMpi.Launch.Sizing
import ParepMpi.Messages.Barrier
import ParepMpi.Messages.Order
import ParepMpi.Rearrange.Prediction
import ParepMpi.Rma.Election
import ParepMpi.Rma.Pool
import ParepMpi.Snapshot.Checkpoint
import ParepMpi.Snapshot.Relocate
import ParepMpi.Store.Fleet
