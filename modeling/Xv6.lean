import Xv6.SecondChance
import Xv6.Arguments
import Xv6.SwapBuffer
import Xv6.Faults
import Xv6.SbrkPaged
import Xv6.Queue
import Xv6.ProtectedPages
import Xv6.Umalloc
import Xv6.BioCoherence
import Xv6.Pipe
import Xv6.Sleeplock
import Xv6.Kill
import Xv6.Scheduler
import Xv6.ForkFailure
import Xv6.ExecImage
import Xv6.SwapName
import Xv6.LogSpace
import Xv6.Console
import Xv6.Ide
import Xv6.ShellGrammar
import Xv6.Grep
import Xv6.Copyout
import Xv6.Release
import Xv6.PageWords
import Xv6.ByteArrays
import Xv6.LogBudget
import Xv6.InodeLocks
