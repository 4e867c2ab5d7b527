import MemIndex.Decimal.Reading
import MemIndex.Record
import MemIndex.Shared
import MemIndex.Text.Display
import MemIndex.Proofs.ChainMap.Accounts
import MemIndex.Proofs.ChainMap.Consistency
import MemIndex.Proofs.ChainMap.Counting
import MemIndex.Proofs.ChainMap.Equality
import MemIndex.Proofs.ChainMap.Policy
import MemIndex.Proofs.ChainMap.Progress
import MemIndex.Proofs.ChainMap.Repeats
import MemIndex.Proofs.ChainMap.Schedule
import MemIndex.Proofs.Refusals
import MemIndex.Proofs.ScoreOrder
import MemIndex.Proofs.SkipList.Climbing
import MemIndex.Proofs.SkipList.Dealing
import MemIndex.Proofs.SkipList.Ranking
import MemIndex.Proofs.SkipList.Stopping
