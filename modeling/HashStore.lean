import HashStore.Describe.Store
import HashStore.Bucket.Shape
import HashStore.Bucket.Faults
import HashStore.Overlap.Basic
import HashStore.Proofs.Entries
import HashStore.Proofs.Bucket.Lawful
import HashStore.Proofs.Bucket.AppendList
import HashStore.Proofs.Bucket.PushList
import HashStore.Proofs.Bucket.Striped
import HashStore.Proofs.Bucket.Truthful
import HashStore.Proofs.Table.Sound
import HashStore.Proofs.Table.Rehash
import HashStore.Proofs.Table.Update
import HashStore.Proofs.Dict
import HashStore.Proofs.Table.Refinement
import HashStore.Proofs.Table.SetOutcome
import HashStore.Proofs.Sharded.Refinement
import HashStore.Proofs.Bucket.Program
import HashStore.Proofs.Bucket.Traversal
import HashStore.Proofs.Bucket.Order
import HashStore.Proofs.Bucket.Striping
import HashStore.Proofs.Bucket.Quiet
import HashStore.Proofs.Table.Capacity
import HashStore.Proofs.Table.Recovery
import HashStore.Proofs.Table.Arrival
import HashStore.Proofs.Overlap.Count
import HashStore.Proofs.Overlap.Load
import HashStore.Proofs.Overlap.Writes
import HashStore.Proofs.Overlap.Sharded
import HashStore.Proofs.Table.Balance
import HashStore.Proofs.Sharded.Product
import HashStore.Proofs.Sharded.Balance
import HashStore.Proofs.Sharded.Clear
import HashStore.Proofs.Sharded.Divided
import HashStore.Proofs.Interleaving
import HashStore.Proofs.Table.Redistribution
import HashStore.Proofs.Table.Removal
import HashStore.Proofs.Sharded.Removal
import HashStore.Proofs.Table.GrowthLog
import HashStore.Proofs.Bucket.StripedTraversal
import HashStore.Proofs.Bucket.Spread
import HashStore.Proofs.Sharded.Masking
import HashStore.Proofs.Table.Placement
import HashStore.Proofs.Sharded.Correlation
import HashStore.Proofs.Table.Checked
import HashStore.Proofs.Sharded.Checked
import HashStore.Proofs.Bucket.EarlyStop
import HashStore.Proofs.Hash.Collisions
import HashStore.Proofs.Hash.Streaming
