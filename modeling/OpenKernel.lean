import OpenKernel.Boot.Multiboot
import OpenKernel.Cpu.ContextSwitch
import OpenKernel.Cpu.InterruptFlag
import OpenKernel.Process.Termination
import OpenKernel.Process.ReadyRing
import OpenKernel.Process.RoundRobin
import OpenKernel.Process.QueueRemoval
import OpenKernel.Process.StackFailure
import OpenKernel.Sync.Contention
import OpenKernel.Memory.Fragmentation
import OpenKernel.Memory.HeapFrames
import OpenKernel.Input.TypedCharacters
import OpenKernel.Input.CommandLine
import OpenKernel.Console.Bounds
import OpenKernel.Console.Printk
import OpenKernel.FileSystem.Atomicity
import OpenKernel.FileSystem.Refinement
import OpenKernel.FileSystem.WorkingDirectory
import OpenKernel.FileSystem.Resolution
import OpenKernel.FileSystem.Creation
import OpenKernel.FileSystem.Listing
import OpenKernel.FileSystem.Printing
import OpenKernel.FileSystem.LineReplacement
import OpenKernel.FileSystem.TypedLines
import OpenKernel.FileSystem.LineNumbers
import OpenKernel.Shell.Wrap
import OpenKernel.Memory.BestFit
import OpenKernel.Memory.Alignment
import OpenKernel.Memory.WrongFrees
import OpenKernel.Memory.PageCount
import OpenKernel.Lib.Flags
import OpenKernel.Lib.History
import OpenKernel.Input.Modifiers
import OpenKernel.Input.GraphicsToggle
import OpenKernel.Input.LayoutTables
import OpenKernel.Lib.Raster
import OpenKernel.Lib.Buffer
import OpenKernel.Display.Text
import OpenKernel.Display.Rectangles
import OpenKernel.Cpu.Sleep
import OpenKernel.Boot.InfoLines
import OpenKernel.FileSystem.PathBuffer
import OpenKernel.FileSystem.HeapFiles
import OpenKernel.Cpu.Gates
import OpenKernel.Sync.Spinlock
import OpenKernel.Sync.InterruptLock
import OpenKernel.Shell.Session
import OpenKernel.Shell.KeyboardSession
import OpenKernel.Process.HeapStacks
import OpenKernel.Display.Glyphs
import OpenKernel.Display.Pictures
import OpenKernel.Lib.RecentLog
import OpenKernel.Shell.ConsoleCommands
import OpenKernel.Shell.GraphicsConsole
