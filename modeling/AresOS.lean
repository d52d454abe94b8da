import AresOS.Calc.Execution
import AresOS.Drivers.AtaWrites
import AresOS.Drivers.DisplayedTime
import AresOS.Drivers.KeyboardBuffer
import AresOS.Editor.DirtyFlag
import AresOS.Editor.Shortcuts
import AresOS.Fs.Crash
import AresOS.Fs.DirectoryScans
import AresOS.Fs.Durability
import AresOS.Fs.InodeTable
import AresOS.Fs.MountFailure
import AresOS.Fs.PathWalkers
import AresOS.Interrupt.Acknowledge
import AresOS.Kernel.CellColours
import AresOS.Kernel.Printf
import AresOS.Memory.HeapRelease
import AresOS.Memory.IdentityWindow
import AresOS.Memory.VmmUnmap
import AresOS.Process.ContextSwitch
import AresOS.Process.PolicySwitch
import AresOS.Process.PreemptionRuns
import AresOS.Process.QuantumRuns
import AresOS.Process.QueueRuns
import AresOS.Process.StablePriority
import AresOS.Security.FileAccess
import AresOS.Security.Passwords
import AresOS.Security.Permissions
import AresOS.Shell.Arguments
import AresOS.Shell.History
import AresOS.Syscall.WriteReports
