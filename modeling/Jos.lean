import Jos.Boot.Allocator
import Jos.Boot.Bootmain
import Jos.Boot.FreeList
import Jos.Boot.Kva
import Jos.Boot.LoadIcode
import Jos.Boot.MapRegion
import Jos.Boot.Mmio
import Jos.Boot.Mpconfig
import Jos.Console.Cga
import Jos.Console.Input
import Jos.Kernel.Atomic
import Jos.Kernel.Frame
import Jos.Kernel.Monitor
import Jos.Lib.Format
import Jos.Lib.Memory
import Jos.Lib.Readline
import Jos.Pmap.Insert
import Jos.Safety.Backtrace
import Jos.Safety.Coherence
import Jos.Safety.Cputs
import Jos.Safety.EnvTable
import Jos.Safety.Exchange
import Jos.Safety.Interrupts
import Jos.Safety.Messages
import Jos.Safety.NewEnv
import Jos.Safety.Panics
import Jos.Safety.Reach
import Jos.Safety.Receipts
import Jos.Safety.Scheduling
import Jos.Safety.StabReads
import Jos.Safety.Stabs
import Jos.Safety.Unmapping
import Jos.Safety.UserView
import Jos.Sched.RoundRobin
import Jos.Smp.Discipline
import Jos.User.FaultStorm
import Jos.User.ForkCopies
import Jos.User.Forktree
import Jos.User.Pingpong
import Jos.User.PlainFork
import Jos.User.Primes
import Jos.User.Printf
import Jos.User.RoundTrip
