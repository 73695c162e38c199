import Laboratorio.SimFifo
import Laboratorio.SimLru
import Laboratorio.LogCrash
import Laboratorio.LogAdmission
import Laboratorio.PipeSleep
import Laboratorio.ProcReaping
import Laboratorio.MkfsLookup
import Laboratorio.BioCache
import Laboratorio.BufDestroy
import Laboratorio.ConsoleEditor
import Laboratorio.SleepKill
import Laboratorio.IdeQueue
import Laboratorio.Canvas
import Laboratorio.Histograma
import Laboratorio.UthreadRoundRobin
import Laboratorio.UthreadMemory
import Laboratorio.WordStack
import Laboratorio.Msgbox
import Laboratorio.SimLlena
import Laboratorio.SimEntrada
import Laboratorio.FileChunks
import Laboratorio.ShRedir
import Laboratorio.SysDirs
import Laboratorio.SysNamings
import Laboratorio.ExecSafe
import Laboratorio.VmIsolation
import Laboratorio.Memmove
import Laboratorio.SyscallArgs
import Laboratorio.Grep
