import SimpleCache.Allocator
import SimpleCache.Loading
import SimpleCache.Flush
import SimpleCache.Ownership
import SimpleCache.Listed
import SimpleCache.Registered
import SimpleCache.Counted
import SimpleCache.Handshake
import SimpleCache.Handoff
import SimpleCache.Delivery
import SimpleCache.Batch
import SimpleCache.Limit
import SimpleCache.Intake
import SimpleCache.Abort
import SimpleCache.History
import SimpleCache.KeyFiles
import SimpleCache.Shelves
import SimpleCache.Ring
import SimpleCache.Strntol
import SimpleCache.Binds
import SimpleCache.Listing
import SimpleCache.Monitoring
import SimpleCache.Emptying
import SimpleCache.Matching
import SimpleCache.Resizing
import SimpleCache.Asked
import SimpleCache.Waiting
import SimpleCache.Khash.Map
import SimpleCache.Hash
import SimpleCache.Restart
import SimpleCache.Progress
import SimpleCache.Downloads
