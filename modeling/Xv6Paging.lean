import Xv6Paging.Transparency
import Xv6Paging.Bookkeeping
import Xv6Paging.GlobalDir
import Xv6Paging.CowRace
import Xv6Paging.Boot
import Xv6Paging.Fs.FileTable
import Xv6Paging.Fs.LogCrash
import Xv6Paging.Fs.DirFull
import Xv6Paging.Fs.IputRace
import Xv6Paging.Fs.BioCoherent
import Xv6Paging.Pipe
import Xv6Paging.Console
import Xv6Paging.ProcKill
import Xv6Paging.Sh.Grammar
import Xv6Paging.Fs.MkfsRun
import Xv6Paging.Selection
import Xv6Paging.Aging
import Xv6Paging.Fork
import Xv6Paging.Fs.DirBytes
import Xv6Paging.Fs.SwapCreate
import Xv6Paging.UmallocSize
import Xv6Paging.Copyout
import Xv6Paging.Memmove
import Xv6Paging.Grep
