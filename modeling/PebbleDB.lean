import PebbleDB.Accounting
import PebbleDB.Budgets
import PebbleDB.CacheNamespace
import PebbleDB.CacheRestarts
import PebbleDB.CacheRuns
import PebbleDB.CacheStatistics
import PebbleDB.Cli
import PebbleDB.CrashChild
import PebbleDB.FailingRun
import PebbleDB.FaultStops
import PebbleDB.FullCompaction
import PebbleDB.Housekeeping
import PebbleDB.JobFiles
import PebbleDB.LevelRun
import PebbleDB.LiveRun
import PebbleDB.RangeMoves
import PebbleDB.SurvivingInputs
import PebbleDB.TableSafety
import PebbleDB.WalAppend
import PebbleDB.WalDamage
