import SenderQueue.Message
import SenderQueue.Deduplicate
import SenderQueue.Queue
import SenderQueue.Invariant
import SenderQueue.Coalescing
import SenderQueue.DumpState
import SenderQueue.Delivery
import SenderQueue.Interleaving
